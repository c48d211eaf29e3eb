import ReluSolver.Number.Scalar
import ReluSolver.Number.Decimal

/-!
Doubles as solver numbers: their exact value, their decimal text and their total order.
-/

namespace ReluSolver.Double

/-- A double taken apart: a finite one is `mantissa * 2 ^ exponent` with a sign. -/
inductive Shape where
  | undefined
  | infinite (negative : Bool)
  | finite (negative : Bool) (mantissa : Nat) (exponent : Int)
deriving DecidableEq, Repr

def shape (x : Float) : Shape :=
  let bits := x.toBits.toNat
  let negative := bits / 0x8000000000000000 == 1
  let field : Nat := bits / 0x10000000000000 % 2048
  let fraction : Nat := bits % 0x10000000000000
  if field == 2047 then
    if fraction == 0 then .infinite negative else .undefined
  else if field == 0 then
    .finite negative fraction (-1074)
  else
    .finite negative (0x10000000000000 + fraction) ((field : Int) - 1075)

/-- A nonnegative finite double as a fraction. -/
def magnitude (mantissa : Nat) (exponent : Int) : Nat × Nat :=
  if 0 ≤ exponent then (mantissa * Nat.pow 2 exponent.toNat, 1)
  else (mantissa, Nat.pow 2 (-exponent).toNat)

private def signed (negative : Bool) (digits : String) : String :=
  if negative then "-" ++ digits else digits

/-- The shortest digits that read back as the same double, never with an exponent. -/
def text (x : Float) : String :=
  match shape x with
  | .undefined => "NaN"
  | .infinite negative => signed negative "inf"
  | .finite negative 0 _ => signed negative "0"
  | .finite negative mantissa exponent =>
    let narrowBelow := mantissa == 0x10000000000000 && exponent != -1074
    signed negative (Decimal.Rounding.ofBinary mantissa exponent narrowBelow).shortest.positional

/-- The exact value rounded to a number of places, a half to even. -/
def fixed (x : Float) (places : Nat) : String :=
  match shape x with
  | .undefined => "NaN"
  | .infinite negative => signed negative "inf"
  | .finite negative mantissa exponent =>
    let (num, den) := magnitude mantissa exponent
    signed negative (Decimal.fixed num den places)

/-- The place of a double in the order of all doubles: negative ones count down from their sign. -/
def rank (x : Float) : Int :=
  let bits := x.toBits.toNat
  if bits < 0x8000000000000000 then bits else 0x7fffffffffffffff - (bits : Int)

instance : Scalar Float where
  decidableLT := inferInstance
  decidableLE := inferInstance
  infinity := 1.0 / 0.0
  largest := Float.ofBits 0x7fefffffffffffff
  abs := Float.abs
  compareTotal x y := compare (rank x) (rank y)
  previous x := Float.ofBits (x.toBits - 1)
  text := text

end ReluSolver.Double
