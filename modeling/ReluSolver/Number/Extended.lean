import ReluSolver.Number.Scalar

/-!
Rationals with two infinities and an undefined value: the numbers of exact arithmetic.

A double that is not NaN denotes one of them, and an operation on them is the operation on doubles
without its rounding. There is one zero only, so a quotient by it takes the sign of the dividend.
-/

namespace ReluSolver

/-- A rational number, an infinity, or the value of an undefined operation. -/
inductive Extended where
  | negInfinity
  | finite (value : Rat)
  | infinity
  | undefined
deriving DecidableEq, Repr

namespace Extended

def neg : Extended → Extended
  | negInfinity => infinity
  | finite x => finite (-x)
  | infinity => negInfinity
  | undefined => undefined

def add : Extended → Extended → Extended
  | undefined, _ | _, undefined => undefined
  | finite x, finite y => finite (x + y)
  | infinity, negInfinity | negInfinity, infinity => undefined
  | infinity, _ | _, infinity => infinity
  | negInfinity, _ | _, negInfinity => negInfinity

def sub (x y : Extended) : Extended :=
  add x (neg y)

/-- The infinity with the sign of `x`; there is none for zero. -/
def signedInfinity (x : Rat) : Extended :=
  if 0 < x then infinity else if x < 0 then negInfinity else undefined

def mul : Extended → Extended → Extended
  | undefined, _ | _, undefined => undefined
  | finite x, finite y => finite (x * y)
  | finite x, infinity | infinity, finite x => signedInfinity x
  | finite x, negInfinity | negInfinity, finite x => neg (signedInfinity x)
  | infinity, infinity | negInfinity, negInfinity => infinity
  | infinity, negInfinity | negInfinity, infinity => negInfinity

def div : Extended → Extended → Extended
  | undefined, _ | _, undefined => undefined
  | finite x, finite y => if y = 0 then signedInfinity x else finite (x / y)
  | finite _, _ => finite 0
  | infinity, finite y => if y < 0 then negInfinity else infinity
  | negInfinity, finite y => if y < 0 then infinity else negInfinity
  | _, _ => undefined

/-- Whether `x < y`; never so when one of them is undefined. -/
def less : Extended → Extended → Bool
  | undefined, _ | _, undefined => false
  | finite x, finite y => decide (x < y)
  | negInfinity, negInfinity => false
  | negInfinity, _ => true
  | finite _, infinity => true
  | _, _ => false

/-- Whether `x = y`; an undefined value equals nothing. -/
def same : Extended → Extended → Bool
  | finite x, finite y => decide (x = y)
  | infinity, infinity | negInfinity, negInfinity => true
  | _, _ => false

/-- Undefined values come last. -/
def compareTotal (x y : Extended) : Ordering :=
  match x, y with
  | undefined, undefined => .eq
  | undefined, _ => .gt
  | _, undefined => .lt
  | x, y => if less x y then .lt else if less y x then .gt else .eq

def abs : Extended → Extended
  | negInfinity | infinity => infinity
  | finite x => finite (if x < 0 then -x else x)
  | undefined => undefined

def text : Extended → String
  | negInfinity => "-inf"
  | finite x => toString x
  | infinity => "inf"
  | undefined => "NaN"

instance : LT Extended := ⟨fun x y => less x y = true⟩

instance : LE Extended := ⟨fun x y => (less x y || same x y) = true⟩

instance : Scalar Extended where
  add := add
  sub := sub
  mul := mul
  div := div
  neg := neg
  beq := same
  ofScientific mantissa negative exponent :=
    finite (OfScientific.ofScientific mantissa negative exponent)
  decidableLT _ _ := inferInstanceAs (Decidable (_ = true))
  decidableLE _ _ := inferInstanceAs (Decidable (_ = true))
  infinity := infinity
  largest := finite (.ofInt (0x1fffffffffffff * Nat.pow 2 971 : Nat))
  abs := abs
  compareTotal := compareTotal
  previous := id
  text := text

end Extended

end ReluSolver
