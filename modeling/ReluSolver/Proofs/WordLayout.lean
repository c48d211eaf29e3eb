import Mathlib.Data.List.TakeDrop
import ReluSolver.Reading.Token

/-! How words are laid out in a text: with gaps of blanks and comments between them.
Whatever the gaps are, the source of the text offers the words one after another. -/

namespace ReluSolver.Reading

/-- What may stand between two words: blanks, and comments with the end of their line. -/
inductive Gap : List Char → Prop
  | empty : Gap []
  | blank {c : Char} {rest : List Char} : Text.isBlank c = true → Gap rest → Gap (c :: rest)
  | comment {body rest : List Char} : '\n' ∉ body → Gap rest → Gap ('#' :: (body ++ '\n' :: rest))

/-- A text is its words in order, with a gap before each of them and another one or a
last comment after them. A word extends as far as it can. -/
inductive Layout : List (List Char) → List Char → Prop
  | gap {text : List Char} : Gap text → Layout [] text
  | comment {gap body : List Char} : Gap gap → '\n' ∉ body → Layout [] (gap ++ '#' :: body)
  | word {gap word rest : List Char} {words : List (List Char)} :
      Gap gap → word ≠ [] → word.all Source.isWordChar = true →
      rest.head?.any Source.isWordChar = false → Layout words rest →
      Layout (word :: words) (gap ++ (word ++ rest))

theorem Layout.newline {words : List (List Char)} {text : List Char} (layout : Layout words text) :
    Layout words ('\n' :: text) := by
  have blank : Text.isBlank '\n' = true := by decide
  cases layout with
  | gap gap => exact .gap (.blank blank gap)
  | comment gap body => exact .comment (.blank blank gap) body
  | word gap nonempty inside ends rest => exact .word (.blank blank gap) nonempty inside ends rest

namespace Source

/-- A text is split into the rest of a line and the lines after it. -/
inductive Holds : List Char → List Line → List Char → Prop
  | last {current : List Char} : '\n' ∉ current → Holds current [] current
  | line {current chars text : List Char} {lines : List Line} :
      '\n' ∉ current → Holds chars lines text →
      Holds current (.text chars :: lines) (current ++ '\n' :: text)

namespace Holds

variable {current text : List Char} {later : List Line} {c : Char}

theorem cons (other : c ≠ '\n') (holds : Holds current later text) :
    Holds (c :: current) later (c :: text) := by
  cases holds with
  | last inside => exact .last (by simp [inside, other.symm])
  | line inside rest => exact .line (by simp [inside, other.symm]) rest

theorem of_cons (other : c ≠ '\n') (holds : Holds current later (c :: text)) :
    ∃ rest, current = c :: rest ∧ Holds rest later text := by
  generalize same : c :: text = whole at holds
  cases holds with
  | last inside =>
    subst same
    exact ⟨text, rfl, .last fun member => inside (List.mem_cons_of_mem _ member)⟩
  | @line _ chars lineText lines inside rest =>
    cases current with
    | nil => exact absurd (List.cons.inj same).1 other
    | cons first others =>
      obtain ⟨rfl, rfl⟩ := List.cons.inj same
      exact ⟨others, rfl, .line (fun member => inside (List.mem_cons_of_mem _ member)) rest⟩

theorem of_append {word : List Char} (single : '\n' ∉ word)
    (holds : Holds current later (word ++ text)) :
    ∃ rest, current = word ++ rest ∧ Holds rest later text := by
  induction word generalizing current with
  | nil => exact ⟨current, rfl, holds⟩
  | cons first others ih =>
    obtain ⟨between, rfl, after⟩ := of_cons (fun same => single (by simp [same])) holds
    obtain ⟨rest, rfl, last⟩ := ih (fun member => single (List.mem_cons_of_mem _ member)) after
    exact ⟨rest, rfl, last⟩

theorem of_newline {body : List Char} (single : '\n' ∉ body)
    (holds : Holds current later (body ++ '\n' :: text)) :
    current = body ∧ ∃ chars lines, later = .text chars :: lines ∧ Holds chars lines text := by
  obtain ⟨rest, rfl, after⟩ := holds.of_append single
  generalize same : '\n' :: text = whole at after
  cases after with
  | last inside => exact absurd (same ▸ by simp) inside
  | line inside others =>
    cases rest with
    | nil => exact ⟨by simp, _, _, rfl, (List.cons.inj same).2 ▸ others⟩
    | cons => exact absurd ((List.cons.inj same).1 ▸ by simp) inside

theorem head (holds : Holds current later text) (first : current.head? = some c) :
    text.head? = some c := by
  cases holds with
  | last => exact first
  | line => simp [first]

end Holds

theorem splitAt_holds (chars : List Char) :
    ∃ first others, splitAt '\n' chars = first :: others ∧
      Holds first (others.map Line.text) chars := by
  induction chars with
  | nil => exact ⟨[], [], rfl, .last (by simp)⟩
  | cons c rest ih =>
    obtain ⟨first, others, split, holds⟩ := ih
    by_cases newline : c = '\n'
    · subst newline
      exact ⟨[], first :: others, by simp [splitAt, split], .line (by simp) holds⟩
    · exact ⟨c :: first, others, by simp [splitAt, split, newline], holds.cons newline⟩

theorem takeWord_blank {c : Char} {rest : List Char} (blank : Text.isBlank c = true) :
    takeWord (c :: rest) = takeWord rest := by
  simp [takeWord, blank]

theorem takeWord_append {word rest : List Char} (nonempty : word ≠ [])
    (inside : word.all isWordChar = true) (ends : rest.head?.any isWordChar = false) :
    takeWord (word ++ rest) = some (word, rest) := by
  obtain ⟨first, others, rfl⟩ := List.exists_cons_of_ne_nil nonempty
  have each := List.all_eq_true.mp inside
  have start := each first (by simp)
  simp only [isWordChar, Bool.and_eq_true, Bool.not_eq_true', bne_iff_ne] at start
  have alone : (first :: others ++ rest).span isWordChar = (first :: others, rest) := by
    rw [List.span_eq_takeWhile_dropWhile, List.takeWhile_append_of_pos each,
      List.dropWhile_append_of_pos each]
    cases rest with
    | nil => simp
    | cons c tail =>
      have stop : isWordChar c = false := ends
      simp [stop]
  unfold takeWord
  simp only [List.cons_append, List.dropWhile_cons, start.1, Bool.false_eq_true, if_false]
  split
  next same => cases same
  next same => exact absurd (List.cons.inj same).1 start.2
  next => exact congrArg some alone

open Holds in
theorem nextWord_gap {gap text current : List Char} {later : List Line} (skipped : Gap gap)
    (holds : Holds current later (gap ++ text)) :
    ∃ rest lines, Holds rest lines text ∧ nextWord current later = nextWord rest lines := by
  induction skipped generalizing current later with
  | empty => exact ⟨current, later, holds, rfl⟩
  | @blank c others blank _ ih =>
    by_cases newline : c = '\n'
    · subst newline
      obtain ⟨rfl, chars, lines, rfl, after⟩ := of_newline List.not_mem_nil holds
      obtain ⟨rest, last, remaining, same⟩ := ih after
      exact ⟨rest, last, remaining, same⟩
    · obtain ⟨between, rfl, after⟩ := of_cons newline holds
      obtain ⟨rest, lines, remaining, same⟩ := ih after
      refine ⟨rest, lines, remaining, ?_⟩
      rw [← same, nextWord.eq_def, takeWord_blank blank, ← nextWord.eq_def]
  | @comment body others single _ ih =>
    have mark : ('#' : Char) ≠ '\n' := by decide
    obtain ⟨between, rfl, inLine⟩ := of_cons mark holds
    rw [List.append_eq, List.append_assoc, List.cons_append] at inLine
    obtain ⟨rfl, chars, lines, rfl, after⟩ := of_newline single inLine
    obtain ⟨rest, last, remaining, same⟩ := ih after
    exact ⟨rest, last, remaining, same⟩

theorem nextWord_word {word text current : List Char} {later : List Line} (nonempty : word ≠ [])
    (inside : word.all isWordChar = true) (ends : text.head?.any isWordChar = false)
    (holds : Holds current later (word ++ text)) :
    ∃ rest, Holds rest later text ∧ nextWord current later = .ok (some word, ⟨rest, later⟩) := by
  have single : '\n' ∉ word := fun member =>
    absurd (List.all_eq_true.mp inside _ member) (by decide)
  obtain ⟨rest, rfl, after⟩ := holds.of_append single
  have stop : rest.head?.any isWordChar = false := by
    cases first : rest.head? with
    | none => rfl
    | some c => rwa [after.head first] at ends
  refine ⟨rest, after, ?_⟩
  rw [nextWord.eq_def, takeWord_append nonempty inside stop]

/-- A source of `words`, and of whatever comes after them. -/
def Offers : List (List Char) → Source → Prop
  | [], _ => True
  | word :: words, source => ∃ rest, source.next = .ok (some word, rest) ∧ Offers words rest

theorem Holds.offers {words : List (List Char)} {text current : List Char} {later : List Line}
    (layout : Layout words text) (holds : Holds current later text) :
    Offers words ⟨current, later⟩ := by
  induction layout generalizing current later with
  | gap | comment => trivial
  | word gap nonempty inside ends _ ih =>
    obtain ⟨start, lines, before, skipped⟩ := nextWord_gap gap holds
    obtain ⟨rest, after, read⟩ := nextWord_word nonempty inside ends before
    exact ⟨⟨rest, lines⟩, skipped.trans read, ih after⟩

/-- The source of a text offers the words that are laid out in it. -/
theorem ofString_offers {words : List (List Char)} {s : String} (layout : Layout words s.toList) :
    Offers words (ofString s) := by
  obtain ⟨first, others, split, holds⟩ := splitAt_holds s.toList
  rw [ofString, ofLines, split]
  exact (Holds.line List.not_mem_nil holds).offers layout.newline

end Source

end ReluSolver.Reading
