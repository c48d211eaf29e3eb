import ReluSolver.Text.Blank

/-!
The words of a text, read one after another.

A word ends at white space or at `#`, and `#` hides the rest of its line. A line is decoded only
when its first word is asked for, so text that is never reached may be damaged.
-/

namespace ReluSolver.Reading

/-- One line without its end. -/
inductive Line where
  | text (chars : List Char)
  /-- The bytes of the line are not UTF-8. -/
  | undecodable
deriving DecidableEq, Repr

/-- What is left to read: the rest of the current line and the lines after it. -/
structure Source where
  current : List Char
  later : List Line

namespace Source

def ofLines (lines : List Line) : Source := ⟨[], lines⟩

/-- The lines of a list that end at each `mark`. -/
def splitAt {β : Type} [BEq β] (mark : β) : List β → List (List β)
  | [] => [[]]
  | x :: rest =>
    if x == mark then [] :: splitAt mark rest
    else
      match splitAt mark rest with
      | line :: lines => (x :: line) :: lines
      | [] => [[x]]

def ofString (s : String) : Source :=
  ofLines ((splitAt '\n' s.toList).map Line.text)

def decode (bytes : List UInt8) : Line :=
  match String.fromUTF8? ⟨bytes.toArray⟩ with
  | some line => .text line.toList
  | none => .undecodable

def ofBytes (bytes : ByteArray) : Source :=
  ofLines ((splitAt 10 bytes.toList).map decode)

/-- Whether a character may stand inside a word. -/
def isWordChar (c : Char) : Bool := !Text.isBlank c && c != '#'

/-- The first word of a line and what follows it. -/
def takeWord (chars : List Char) : Option (List Char × List Char) :=
  let word := chars.dropWhile Text.isBlank
  match word with
  | [] => none
  | '#' :: _ => none
  | _ => some (word.span isWordChar)

/-- The next word, or `none` at the end of the text; an undecodable line is an error. -/
def nextWord (current : List Char) (later : List Line) :
    Except Unit (Option (List Char) × Source) :=
  match takeWord current with
  | some (word, rest) => .ok (some word, ⟨rest, later⟩)
  | none =>
    match later with
    | [] => .ok (none, ⟨[], []⟩)
    | .undecodable :: _ => .error ()
    | .text chars :: lines => nextWord chars lines

def next (s : Source) : Except Unit (Option (List Char) × Source) :=
  nextWord s.current s.later

end Source

end ReluSolver.Reading
