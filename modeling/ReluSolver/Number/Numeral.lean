import ReluSolver.Fault
import ReluSolver.Number.Scalar

/-!
Reading numbers: counts, and decimal numerals with an optional fraction and exponent.

Only ASCII digits count, and a numeral is the whole word: nothing may surround it.
-/

namespace ReluSolver

/-- What a numeral denotes, before any rounding. -/
inductive Numeral where
  /-- `mantissa * 10 ^ exponent`, with a sign that also a zero has. -/
  | finite (negative : Bool) (mantissa : Nat) (exponent : Int)
  | infinite (negative : Bool)
  | undefined
deriving DecidableEq, Repr

namespace Numeral

/-- The number that a string of digits continues to after `start`. -/
def digitsFrom (start : Nat) (digits : List Char) : Nat :=
  digits.foldl (fun value c => 10 * value + (c.toNat - '0'.toNat)) start

/-- A sign, `true` for minus, and what follows it. -/
def takeSign : List Char → Bool × List Char
  | '-' :: rest => (true, rest)
  | '+' :: rest => (false, rest)
  | cs => (false, cs)

/-- The exponent that a numeral ends with: nothing, or `e` with a signed whole number. -/
def readExponent : List Char → Option Int
  | [] => some 0
  | c :: rest =>
    if c = 'e' || c = 'E' then
      let (negative, digits) := takeSign rest
      if digits.isEmpty || !digits.all Char.isDigit then none
      else
        let magnitude := digitsFrom 0 digits
        some (if negative then -(magnitude : Int) else magnitude)
    else none

/-- The fraction digits after a point, and what follows them. -/
def takeFraction : List Char → List Char × List Char
  | '.' :: rest => rest.span Char.isDigit
  | cs => ([], cs)

/-- An unsigned numeral with at least one digit before or after its point. -/
def readFinite (negative : Bool) (cs : List Char) : Option Numeral :=
  let (whole, afterWhole) := cs.span Char.isDigit
  let (fraction, afterFraction) := takeFraction afterWhole
  if whole.isEmpty && fraction.isEmpty then none
  else
    (readExponent afterFraction).map fun exponent =>
      finite negative (digitsFrom (digitsFrom 0 whole) fraction) (exponent - fraction.length)

/-- The words for values that have no digits, in any case. -/
def readWord (negative : Bool) (cs : List Char) : Option Numeral :=
  match String.ofList (cs.map Char.toLower) with
  | "inf" | "infinity" => some (infinite negative)
  | "nan" => some undefined
  | _ => none

def ofChars? (cs : List Char) : Option Numeral :=
  let (negative, body) := takeSign cs
  match readFinite negative body with
  | some numeral => some numeral
  | none => readWord negative body

/-- The nearest number of type `α`. -/
def toScalar {α : Type} [Scalar α] : Numeral → α
  | finite negative mantissa exponent =>
    let magnitude : α :=
      OfScientific.ofScientific mantissa (decide (exponent < 0)) exponent.natAbs
    if negative then -magnitude else magnitude
  | infinite negative => if negative then -Scalar.infinity else Scalar.infinity
  | undefined => Scalar.undefined

end Numeral

/-- A count or an index: digits after an optional plus, at most the greatest index. -/
def readIndex? (cs : List Char) : Option Nat :=
  let digits := match cs with
    | '+' :: rest => rest
    | _ => cs
  if digits.isEmpty || !digits.all Char.isDigit then none
  else
    let value := Numeral.digitsFrom 0 digits
    if value ≤ maxIndex then some value else none

end ReluSolver
