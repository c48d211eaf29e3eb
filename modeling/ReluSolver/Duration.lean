import ReluSolver.Number.Double

/-!
Spans of time, counted in nanoseconds.

A span is at most one nanosecond short of `2 ^ 64` seconds.
-/

namespace ReluSolver

structure Duration where
  nanoseconds : Nat
deriving DecidableEq, Repr, Inhabited

namespace Duration

/-- Nanoseconds per second. -/
abbrev perSecond : Nat := 1000000000

/-- Nanoseconds per millisecond. -/
abbrev perMillisecond : Nat := 1000000

def zero : Duration := ⟨0⟩

def ofSeconds (seconds : Nat) : Duration := ⟨seconds * perSecond⟩

def ofMilliseconds (milliseconds : Nat) : Duration := ⟨milliseconds * perMillisecond⟩

/-- The greatest span. -/
def longest : Duration := ⟨0x10000000000000000 * perSecond - 1⟩

def isZero (d : Duration) : Bool := d.nanoseconds == 0

def max (a b : Duration) : Duration := if a.nanoseconds ≤ b.nanoseconds then b else a

def seconds (d : Duration) : Nat := d.nanoseconds / perSecond

/-- The nanoseconds past the last whole second. -/
def subsecond (d : Duration) : Nat := d.nanoseconds % perSecond

/-- The span in seconds, from the rounded seconds and the rounded fraction. -/
def toSeconds (d : Duration) : Float :=
  Float.ofNat d.seconds + Float.ofNat d.subsecond / 1e9

/-- The span nearest to a number of seconds, a half nanosecond going to the even neighbour. There is
none for a negative, undefined or too large number. -/
def ofSeconds? (seconds : Float) : Option Duration :=
  match Double.shape seconds with
  | .undefined | .infinite _ => none
  | .finite negative mantissa exponent =>
    let (num, den) := Double.magnitude mantissa exponent
    if mantissa == 0 then some zero
    else if negative || decide (den * 0x10000000000000000 ≤ num) then none
    else some ⟨Decimal.roundHalfEven (num * perSecond) den⟩

/-- A span scaled by `factor`, or the longest one if the product is not a span. Zero stays zero. -/
def scale (d : Duration) (factor : Float) : Duration :=
  if d.isZero then d else (ofSeconds? (d.toSeconds * factor)).getD longest

private def inUnit (nanoseconds : Nat) (unitExponent : Nat) (unit : String) : String :=
  (Decimal.Scaled.positional ⟨nanoseconds, -(unitExponent : Int)⟩) ++ unit

/-- The span in the largest unit that it fills, with the exact fraction. -/
def text (d : Duration) : String :=
  let n := d.nanoseconds
  if perSecond ≤ n then inUnit n 9 "s"
  else if perMillisecond ≤ n then inUnit n 6 "ms"
  else if 1000 ≤ n then inUnit n 3 "µs"
  else Nat.repr n ++ "ns"

end Duration

end ReluSolver
