import ReluSolver.Number.Extended
import ReluSolver.Proofs.WordLayout
import ReluSolver.Reading.QueryText

/-! A source yields the words of its text, and reading a query depends on them only: where the words
of two texts are the same, either both are the same query, or both are refused for the same reason. -/

namespace ReluSolver.Reading

/-- The words of a line: what blanks separate in front of the first `#`. -/
def lineWords (line : List Char) : List (List Char) :=
  ((line.takeWhile (· != '#')).splitOnP Text.isBlank).filter (!·.isEmpty)

def wordsOf (text : String) : List (List Char) :=
  (text.toList.splitOn '\n').flatMap lineWords

section Line

variable {c : Char} {word rest : List Char}

theorem lineWords_nil : lineWords [] = [] := rfl

theorem lineWords_blank (blank : Text.isBlank c = true) : lineWords (c :: rest) = lineWords rest := by
  have shown : c ≠ '#' := by
    rintro rfl
    exact absurd blank (by decide)
  simp [lineWords, shown, List.splitOnP_cons_eq_if_modifyHead, blank]

theorem lineWords_comment : lineWords ('#' :: rest) = [] := by
  simp [lineWords]

theorem lineWords_append (nonempty : word ≠ []) (inside : word.all Source.isWordChar = true)
    (ends : rest.head?.any Source.isWordChar = false) :
    lineWords (word ++ rest) = word :: lineWords rest := by
  have each : ∀ c ∈ word, Text.isBlank c = false ∧ c ≠ '#' := by
    simpa [Source.isWordChar] using inside
  have unbroken : ∀ c ∈ word, Text.isBlank c = false := fun c member => (each c member).1
  have shown : (word ++ rest).takeWhile (· != '#') = word ++ rest.takeWhile (· != '#') :=
    List.takeWhile_append_of_pos fun c member => by simpa using (each c member).2
  rw [lineWords, shown]
  cases rest with
  | nil => simp [lineWords, List.splitOnP_eq_singleton unbroken, nonempty]
  | cons c rest =>
    by_cases mark : c = '#'
    · simp [lineWords, mark, List.splitOnP_eq_singleton unbroken, nonempty]
    · have blank : Text.isBlank c = true := by simpa [Source.isWordChar, mark] using ends
      rw [lineWords_blank blank, List.takeWhile_cons_of_pos (by simpa using mark),
        List.splitOnP_append_cons_of_forall_mem unbroken c blank]
      simp [lineWords, nonempty]

end Line

namespace Source

/-- What is taken from a line is its first word. -/
theorem takeWord_lineWords (line : List Char) :
    takeWord line = none ∧ lineWords line = [] ∨
      ∃ word rest, takeWord line = some (word, rest) ∧ lineWords line = word :: lineWords rest := by
  induction line with
  | nil => exact .inl ⟨rfl, rfl⟩
  | cons c rest ih =>
    by_cases blank : Text.isBlank c = true
    · rwa [takeWord_blank blank, lineWords_blank blank]
    by_cases mark : c = '#'
    · subst mark
      exact .inl ⟨rfl, lineWords_comment⟩
    have start : isWordChar c = true := by simp [isWordChar, blank, mark]
    obtain ⟨word, tail, parts, nonempty, inside, ends⟩ : ∃ word tail, c :: rest = word ++ tail ∧
        word ≠ [] ∧ word.all isWordChar = true ∧ tail.head?.any isWordChar = false := by
      refine ⟨_, _, List.takeWhile_append_dropWhile.symm, by simp [start], List.all_takeWhile, ?_⟩
      have stops := List.head?_dropWhile_not isWordChar (c :: rest)
      split at stops
      next found => rwa [found]
      next none => rw [none]; rfl
    rw [parts]
    exact .inr ⟨word, tail, takeWord_append nonempty inside ends,
      lineWords_append nonempty inside ends⟩

/-- The words that a source still holds, none of whose lines is damaged. -/
def Lists (words : List (List Char)) (s : Source) : Prop :=
  ∃ lines : List (List Char), s.later = lines.map .text ∧
    words = lineWords s.current ++ lines.flatMap lineWords

theorem Lists.next {words : List (List Char)} {s : Source} (lists : s.Lists words) :
    ∃ rest, s.next = .ok (words.head?, rest) ∧ rest.Lists words.tail := by
  obtain ⟨current, later⟩ := s
  obtain ⟨lines, rfl, rfl⟩ := lists
  unfold Source.next
  induction lines generalizing current with
  | nil =>
    rw [List.map_nil, nextWord.eq_def]
    rcases takeWord_lineWords current with ⟨taken, words⟩ | ⟨word, rest, taken, words⟩
    · exact ⟨⟨[], []⟩, by simp [taken, words], [], rfl, by simp [words, lineWords_nil]⟩
    · exact ⟨⟨rest, []⟩, by simp [taken, words], [], rfl, by simp [words]⟩
  | cons line lines ih =>
    rw [List.map_cons, nextWord.eq_def]
    rcases takeWord_lineWords current with ⟨taken, words⟩ | ⟨word, rest, taken, words⟩
    · obtain ⟨rest, next, later⟩ := ih line
      exact ⟨rest, by simpa [taken, words] using next, by simpa [words] using later⟩
    · exact ⟨⟨rest, .text line :: lines.map .text⟩, by simp [taken, words], line :: lines, rfl,
        by simp [words]⟩

/-- What a source answers when a word is asked for the `n`-th time. -/
def answer : Nat → Source → Except Unit (Option (List Char))
  | 0, s => return (← s.next).1
  | n + 1, s => do (← s.next).2.answer n

theorem Lists.answer {words : List (List Char)} {s : Source} (lists : s.Lists words) (n : Nat) :
    s.answer n = .ok words[n]? := by
  induction n generalizing words s with
  | zero =>
    obtain ⟨rest, next, -⟩ := lists.next
    rw [Source.answer, next, List.head?_eq_getElem?]
    rfl
  | succ n ih =>
    obtain ⟨rest, next, later⟩ := lists.next
    rw [Source.answer, next]
    exact (ih later).trans (by rw [List.getElem?_tail])

theorem splitAt_eq_splitOn {β : Type} [BEq β] (mark : β) (items : List β) :
    splitAt mark items = items.splitOn mark := by
  induction items with
  | nil => rfl
  | cons x rest ih =>
    rw [splitAt, ih, List.splitOn_cons_eq_if_modifyHead]
    split
    · rfl
    · split
      next pieces => rw [pieces, List.modifyHead_cons]
      next none => exact absurd none (List.splitOn_ne_nil mark rest)

theorem ofString_lists (text : String) : (ofString text).Lists (wordsOf text) :=
  ⟨text.toList.splitOn '\n', by rw [ofString, ofLines, splitAt_eq_splitOn], rfl⟩

section Bytes

theorem byteArray_toList_loop (bytes : ByteArray) (i : Nat) (front : List UInt8) :
    ByteArray.toList.loop bytes i front = front.reverse ++ bytes.data.toList.drop i := by
  fun_induction ByteArray.toList.loop bytes i front with
  | case1 i front inside ih =>
    have listed : i < bytes.data.toList.length := by simpa using inside
    have read : bytes.get! i = bytes.data.toList[i] := getElem!_pos bytes.data i inside
    rw [ih, List.drop_eq_getElem_cons listed, read, List.reverse_cons, List.append_assoc,
      List.singleton_append]
  | case2 i front outside =>
    rw [List.drop_eq_nil_of_le (by simpa using outside), List.append_nil]

theorem toUTF8_toList (text : String) :
    text.toUTF8.toList = text.toList.flatMap String.utf8EncodeChar := by
  rw [ByteArray.toList, byteArray_toList_loop, String.toUTF8, ← String.utf8Encode_toList,
    List.utf8Encode, List.toList_data_toByteArray]
  rfl

theorem newline_encoded {c : Char} (member : 10 ∈ String.utf8EncodeChar c) : c = '\n' := by
  have code : ∀ n, 10 = UInt8.ofNat n ↔ n % 256 = 10 := fun n => by
    rw [← UInt8.toNat_inj, UInt8.toNat_ofNat', eq_comm]
    rfl
  simp only [String.utf8EncodeChar] at member
  split at member
  next =>
    rw [List.mem_singleton, code] at member
    exact Char.toNat_inj.mp (by change c.val.toNat = 10; omega)
  next =>
    -- All bytes of a longer code are greater.
    exfalso
    split at member
    next =>
      simp only [List.mem_cons, code, List.not_mem_nil, or_false] at member
      omega
    next =>
      split at member <;>
      · simp only [List.mem_cons, code, List.not_mem_nil, or_false] at member
        omega

theorem splitOn_append {β : Type} [BEq β] [LawfulBEq β] {mark : β} {front rest line : List β}
    {lines : List (List β)} (unbroken : mark ∉ front) (pieces : rest.splitOn mark = line :: lines) :
    (front ++ rest).splitOn mark = (front ++ line) :: lines := by
  induction front with
  | nil => exact pieces
  | cons x front ih =>
    rw [List.mem_cons, not_or] at unbroken
    rw [List.cons_append, List.splitOn_cons_eq_if_modifyHead,
      if_neg (by simpa using Ne.symm unbroken.1), ih unbroken.2]
    rfl

theorem splitOn_encoded (chars : List Char) :
    (chars.flatMap String.utf8EncodeChar).splitOn 10 =
      (chars.splitOn '\n').map (·.flatMap String.utf8EncodeChar) := by
  induction chars with
  | nil => rfl
  | cons c rest ih =>
    rw [List.flatMap_cons, List.splitOn_cons_eq_if_modifyHead]
    by_cases newline : c = '\n'
    · subst newline
      change List.splitOn 10 (10 :: _) = _
      simp [List.splitOn_cons_eq_if_modifyHead, ih]
    · obtain ⟨line, lines, pieces⟩ := List.exists_cons_of_ne_nil (List.splitOn_ne_nil '\n' rest)
      rw [pieces] at ih
      rw [if_neg (by simpa using newline), pieces,
        splitOn_append (fun member => newline (newline_encoded member)) ih]
      simp

theorem decode_encoded (line : List Char) :
    decode (line.flatMap String.utf8EncodeChar) = .text line := by
  have encoded : (⟨(line.flatMap String.utf8EncodeChar).toArray⟩ : ByteArray) = line.utf8Encode := by
    ext1
    apply Array.toList_inj.mp
    simp [List.utf8Encode]
  have valid : String.fromUTF8? line.utf8Encode = some (String.ofList line) :=
    dif_pos ⟨line, rfl⟩
  rw [decode, encoded, valid]
  simp

/-- Reading the bytes of a text line by line is reading the text. -/
theorem ofBytes_toUTF8 (text : String) : ofBytes text.toUTF8 = ofString text := by
  rw [ofBytes, ofString, toUTF8_toList, splitAt_eq_splitOn, splitAt_eq_splitOn, splitOn_encoded,
    List.map_map]
  exact congrArg ofLines (List.map_congr_left fun line _ => decode_encoded line)

end Bytes

end Source

variable {α β γ : Type}

/-- Two outcomes of reading are the same, and the same words are left to read. -/
inductive Agree : Except (LoadError α) (β × Source) → Except (LoadError α) (β × Source) → Prop
  | value {v : β} {s s' : Source} {words : List (List Char)} :
      s.Lists words → s'.Lists words → Agree (.ok (v, s)) (.ok (v, s'))
  | refusal {cause : LoadError α} : Agree (.error cause) (.error cause)

/-- What a reader does depends on nothing but the words that are left to read. -/
def SeesWords (step : Reader α β) : Prop :=
  ∀ s s' : Source, ∀ words, s.Lists words → s'.Lists words → Agree (step s) (step s')

namespace SeesWords

theorem pure (value : β) : SeesWords (Pure.pure value : Reader α β) :=
  fun _ _ _ lists lists' => .value lists lists'

theorem throw (cause : LoadError α) : SeesWords (MonadExcept.throw cause : Reader α β) :=
  fun _ _ _ _ _ => .refusal

theorem bind {step : Reader α β} {next : β → Reader α γ} (first : SeesWords step)
    (rest : ∀ value, SeesWords (next value)) : SeesWords (step >>= next) := by
  intro s s' words lists lists'
  change Agree (Except.bind (step s) fun between => next between.1 between.2)
    (Except.bind (step s') fun between => next between.1 between.2)
  have agree := first s s' words lists lists'
  generalize step s = outcome, step s' = outcome' at agree
  cases agree with
  | value left left' => exact rest _ _ _ _ left left'
  | refusal => exact .refusal

theorem throw_bind (cause : LoadError α) (next : γ → Reader α β) :
    SeesWords ((MonadExcept.throw cause : Reader α γ) >>= next) :=
  fun _ _ _ _ _ => .refusal

theorem liftFault (result : Except Fault β) : SeesWords (Reading.liftFault result : Reader α β) := by
  cases result with
  | ok value => exact pure value
  | error fault => exact throw (.fault fault)

theorem word (part : Section) : SeesWords (Reading.word part : Reader α (List Char)) := by
  intro s s' words lists lists'
  obtain ⟨rest, next, left⟩ := lists.next
  obtain ⟨rest', next', left'⟩ := lists'.next
  simp only [Reading.word, MonadState.get, getThe, MonadStateOf.get, StateT.get, Bind.bind, StateT.bind,
    Except.bind, Pure.pure, Except.pure, next, next']
  cases words with
  | nil => exact .refusal
  | cons word words => exact .value left left'

theorem index (part : Section) : SeesWords (Reading.index part : Reader α Nat) := by
  refine (word part).bind fun chars => ?_
  split
  · exact pure _
  · exact throw _

theorem number [Scalar α] (part : Section) : SeesWords (Reading.number part : Reader α α) := by
  refine (word part).bind fun chars => ?_
  split
  · exact pure _
  · exact throw _

theorem knownVariable (size : Nat) (part : Section) :
    SeesWords (Reading.knownVariable size part : Reader α Variable) := by
  refine (index part).bind fun x => ?_
  split
  · exact pure _
  · exact throw _

theorem forEach {step : Nat → β → Reader α β} (each : ∀ i value, SeesWords (step i value))
    (count start : Nat) (value : β) : SeesWords (Reading.forEach step count start value) := by
  induction count generalizing start value with
  | zero => exact pure value
  | succ count ih => exact (each start value).bind (ih (start + 1))

variable [Scalar α]

theorem readBounds (validate : Bool) (x : Variable) (q : Query α) :
    SeesWords (Reading.readBounds validate x q) := by
  refine (number .bounds).bind fun lower => (number .bounds).bind fun upper => ?_
  dsimp only
  split
  · exact throw_bind _ _
  · exact liftFault _

theorem readEquation (size : Nat) : SeesWords (Reading.readEquation size : Reader α (Equation α)) := by
  refine (index .equations).bind fun count => (number .equations).bind fun scalar => ?_
  refine forEach (fun _ e => (number .equations).bind fun coefficient => ?_) count 0 _
  exact (knownVariable size .equations).bind fun x => pure _

theorem readQuery (validate : Bool) : SeesWords (Reading.readQuery validate : Reader α (Query α)) := by
  refine (index .header).bind fun size => (index .header).bind fun equations =>
    (index .header).bind fun relus => (index .header).bind fun inputs =>
    (index .header).bind fun outputs => ?_
  split
  · exact throw_bind _ _
  refine (forEach (fun _ q => ?_) inputs 0 _).bind fun q =>
    (forEach (fun _ q => ?_) outputs 0 q).bind fun q =>
    (forEach (readBounds validate) size 0 q).bind fun q =>
    (forEach (fun _ q => ?_) equations 0 q).bind fun q => forEach (fun _ q => ?_) relus 0 q
  · exact (knownVariable size .inputs).bind fun x => liftFault _
  · exact (knownVariable size .outputs).bind fun x => liftFault _
  · exact (readEquation size).bind fun e => liftFault _
  · exact (knownVariable size .relus).bind fun b =>
      (knownVariable size .relus).bind fun f => liftFault _

end SeesWords

theorem load_words [Scalar α] {s s' : Source} {words : List (List Char)} (lists : s.Lists words)
    (lists' : s'.Lists words) (validate : Bool) :
    (load s validate : Except (LoadError α) (Query α)) = load s' validate := by
  have agree := SeesWords.readQuery (α := α) validate s s' words lists lists'
  unfold load StateT.run'
  generalize readQuery (α := α) validate s = outcome, readQuery (α := α) validate s' = outcome' at agree
  cases agree <;> rfl

/-- A source yields the words of its text in their order, and none after them. Texts of the same words
are the same query, or refused for the same reason, whatever stands between their words. -/
theorem load_by_words [Scalar α] (text : String) :
    (∀ n, (Source.ofBytes text.toUTF8).answer n = .ok (wordsOf text)[n]?) ∧
      ∀ other : String, wordsOf other = wordsOf text → ∀ validate,
        (load (.ofBytes other.toUTF8) validate : Except (LoadError α) (Query α)) =
          load (.ofBytes text.toUTF8) validate := by
  have lists : ∀ text : String, (Source.ofBytes text.toUTF8).Lists (wordsOf text) := fun text => by
    rw [Source.ofBytes_toUTF8]
    exact Source.ofString_lists text
  exact ⟨(lists text).answer, fun other same => load_words (same ▸ lists other) (lists text)⟩

theorem eq_unreadable {result : Except (LoadError α) β} {word : String} {kind : WordKind}
    {part : Section} (given : (match result with
      | .error (.unreadable word kind part) => some (word, kind, part)
      | _ => none) = some (word, kind, part)) : result = .error (.unreadable word kind part) := by
  split at given
  · cases given
    rfl
  · cases given

/-- The seventh word is not a number, in whichever way it is set apart. -/
theorem load_by_words_unreadable :
    let plain := "1 0 0 0 0 -2 x"
    let commented := "1 0 0 0 0#header\n-2#lb\n\n\u2003x# end"
    wordsOf commented = wordsOf plain ∧
      (Source.ofBytes commented.toUTF8).answer 6 = .ok (some ['x']) ∧
      (Source.ofBytes commented.toUTF8).answer 7 = .ok none ∧
      load (α := Extended) (.ofBytes plain.toUTF8) true = .error (.unreadable "x" .number .bounds) ∧
      load (α := Extended) (.ofBytes commented.toUTF8) true =
        .error (.unreadable "x" .number .bounds) := by
  intro plain commented
  have same : wordsOf commented = wordsOf plain := by decide +kernel
  have words : (wordsOf commented)[6]? = some ['x'] ∧ (wordsOf commented)[7]? = none := by
    decide +kernel
  have refused : load (α := Extended) (.ofBytes plain.toUTF8) true =
      .error (.unreadable "x" .number .bounds) := by
    rw [Source.ofBytes_toUTF8]
    exact eq_unreadable (by decide +kernel)
  obtain ⟨-, loads⟩ := load_by_words (α := Extended) plain
  obtain ⟨answers, -⟩ := load_by_words (α := Extended) commented
  exact ⟨same, (answers 6).trans (congrArg _ words.1), (answers 7).trans (congrArg _ words.2), refused,
    (loads commented same true).trans refused⟩

end ReluSolver.Reading
