/-!
Decimal text of exact binary fractions.

A positive double is `mantissa * 2 ^ exponent`. `shortest` gives the fewest digits whose value is
still rounded to that double, and of those the nearest; `fixed` rounds to a number of places.
Everything is natural number arithmetic, so no digit depends on a rounding of its own.
-/

namespace ReluSolver.Decimal

/-- A decimal number `digits * 10 ^ exponent`. -/
structure Scaled where
  digits : Nat
  exponent : Int
deriving DecidableEq, Repr

/-- The number of decimal digits of a positive number. -/
def width (n : Nat) : Nat :=
  (Nat.repr n).length

/-- The exponent of the leading decimal digit of the positive fraction `num / den`. -/
def leadingExponent (num den : Nat) : Int :=
  if den ≤ num then
    (width (num / den) : Int) - 1
  else
    -(width ((den + num - 1) / num - 1) : Int)

/-- `num / den` divided by `10 ^ exponent`, again as a fraction. -/
def rescale (num den : Nat) (exponent : Int) : Nat × Nat :=
  if 0 ≤ exponent then
    (num, den * Nat.pow 10 exponent.toNat)
  else
    (num * Nat.pow 10 (-exponent).toNat, den)

/-- The reals that round to one double: from `low / den` to `high / den` around `value / den`. -/
structure Rounding where
  low : Nat
  value : Nat
  high : Nat
  den : Nat
  /-- Whether the two ends round to the double as well. -/
  closed : Bool

namespace Rounding

/-- The interval of the double `mantissa * 2 ^ exponent`. The gap below a power of two is half as
wide as the one above it, unless the exponent is already the least one. -/
def ofBinary (mantissa : Nat) (exponent : Int) (narrowBelow : Bool) : Rounding :=
  let scale := if 0 ≤ exponent then Nat.pow 2 exponent.toNat else 1
  let den := if 0 ≤ exponent then 4 else 4 * Nat.pow 2 (-exponent).toNat
  { low := (4 * mantissa - (if narrowBelow then 1 else 2)) * scale
    value := 4 * mantissa * scale
    high := (4 * mantissa + 2) * scale
    den := den
    closed := mantissa % 2 == 0 }

/-- Whether `n * unit`, over the common denominator, lies in the interval. -/
def contains (r : Rounding) (n unit lowNum highNum : Nat) : Bool :=
  let x := n * unit
  if r.closed then lowNum ≤ x && x ≤ highNum else lowNum < x && x < highNum

/-- The point of the grid of multiples of `10 ^ exponent` that rounds to the double, if one of the
two neighbours of the value does. -/
def onGrid? (r : Rounding) (exponent : Int) : Option Scaled :=
  let (value, unit) := rescale r.value r.den exponent
  let low := (rescale r.low r.den exponent).1
  let high := (rescale r.high r.den exponent).1
  let below := value / unit
  let inBelow := below != 0 && r.contains below unit low high
  let inAbove := r.contains (below + 1) unit low high
  if inBelow && inAbove then
    if value - below * unit ≤ (below + 1) * unit - value then some ⟨below, exponent⟩
    else some ⟨below + 1, exponent⟩
  else if inBelow then some ⟨below, exponent⟩
  else if inAbove then some ⟨below + 1, exponent⟩
  else none

/-- The shortest decimal in the interval; seventeen digits always suffice for a double. -/
def shortest (r : Rounding) : Scaled :=
  let leading := leadingExponent r.value r.den
  ((List.range 17).findSome? fun (k : Nat) => r.onGrid? (leading - k)).getD ⟨0, 0⟩

end Rounding

/-- Positional notation, without an exponent and without a point after a whole number. -/
def Scaled.positional (d : Scaled) : String :=
  if 0 ≤ d.exponent then
    Nat.repr (d.digits * Nat.pow 10 d.exponent.toNat)
  else
    let places := (-d.exponent).toNat
    let unit := Nat.pow 10 places
    let whole := d.digits / unit
    let fraction := (Nat.repr (unit + d.digits % unit)).toList.drop 1
    let kept := (fraction.reverse.dropWhile (· == '0')).reverse
    if kept.isEmpty then Nat.repr whole else Nat.repr whole ++ "." ++ String.ofList kept

/-- The natural number nearest to `num / den`; a half goes to the even neighbour. -/
def roundHalfEven (num den : Nat) : Nat :=
  let quotient := num / den
  let rest := 2 * (num % den)
  if rest < den then quotient
  else if den < rest then quotient + 1
  else if quotient % 2 == 0 then quotient else quotient + 1

/-- `num / den` with exactly `places` digits after the point, a half rounded to even. -/
def fixed (num den places : Nat) : String :=
  let unit := Nat.pow 10 places
  let scaled := roundHalfEven (num * unit) den
  let fraction := (Nat.repr (unit + scaled % unit)).toList.drop 1
  Nat.repr (scaled / unit) ++ "." ++ String.ofList fraction

end ReluSolver.Decimal
