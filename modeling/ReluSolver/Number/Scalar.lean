/-!
The numbers that bounds, coefficients and assignments are made of.

Every numeric definition of the solver is written once, over a type with the operations below.
Two such types matter: doubles, which the program runs on, and rationals extended by the two
infinities, on which its guarantees are stated. A class method is one that the two compute
differently; what both derive in the same way is an ordinary definition.
-/

namespace ReluSolver

/-- A number type with infinities. Comparisons with an undefined value such as `∞ - ∞` are false. -/
class Scalar (α : Type) extends Add α, Sub α, Mul α, Div α, Neg α, LT α, LE α, BEq α,
    OfScientific α where
  decidableLT : DecidableLT α
  decidableLE : DecidableLE α
  /-- Above every finite number. -/
  infinity : α
  /-- The greatest number that a finite bound may take. -/
  largest : α
  abs : α → α
  /-- A total order that agrees with `<` and puts an undefined magnitude above all others. -/
  compareTotal : α → α → Ordering
  /-- The next representable number below a positive one. -/
  previous : α → α
  /-- The shortest decimal text that reads back as the same number. -/
  text : α → String

namespace Scalar

variable {α : Type} [Scalar α]

instance (x y : α) : Decidable (x < y) := decidableLT x y

instance (x y : α) : Decidable (x ≤ y) := decidableLE x y

instance (n : Nat) : OfNat α n := ⟨OfScientific.ofScientific n false 0⟩

instance : Inhabited α := ⟨0⟩

/-- Neither infinite nor undefined. -/
def isFinite (x : α) : Bool :=
  decide (abs x < infinity)

/-- An undefined value is the only one that differs from itself. -/
def isUndefined (x : α) : Bool :=
  !(x == x)

/-- The undefined value. -/
def undefined : α :=
  infinity - infinity

/-- The larger argument; an undefined one is ignored, and of two equal ones the first is taken. -/
def max (x y : α) : α :=
  if isUndefined x then y else if x < y then y else x

/-- The smaller argument; an undefined one is ignored, and of two equal ones the first is taken. -/
def min (x y : α) : α :=
  if isUndefined x then y else if y < x then y else x

/-- `x` moved into `[lower, upper]`. -/
def clamp (x lower upper : α) : α :=
  if x < lower then lower else if upper < x then upper else x

/-- The sum from left to right. It starts at negative zero, which no addition can change. -/
def sum (terms : List α) : α :=
  terms.foldl (· + ·) (-0)

/-- The sum of the products of two vectors' entries, from left to right. -/
def dot (xs ys : List α) : α :=
  sum (List.zipWith (· * ·) xs ys)

end Scalar

end ReluSolver
