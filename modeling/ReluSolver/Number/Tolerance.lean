import ReluSolver.Fault
import ReluSolver.Number.Scalar

/-!
Comparison of numbers up to an absolute tolerance.

Two infinities of one sign are equal, and an undefined value compares as neither equal nor ordered.
-/

namespace ReluSolver

/-- How far two numbers may differ and still count as equal. -/
structure Tolerance (α : Type) where
  epsilon : α

namespace Tolerance

variable {α : Type} [Scalar α]

/-- The tolerance used unless another one is asked for. -/
def defaultEpsilon : α := 1e-9

/-- The least magnitude of a pivot, unless another one is asked for. -/
def defaultPivot : α := 1e-10

def ofEpsilon (epsilon : α) : Except Fault (Tolerance α) :=
  if Scalar.isFinite epsilon && decide (0 ≤ epsilon) then .ok ⟨epsilon⟩ else .error .invalidEpsilon

variable (t : Tolerance α)

def isZero (x : α) : Bool := decide (Scalar.abs x ≤ t.epsilon)

def isPositive (x : α) : Bool := decide (t.epsilon < x)

def isNegative (x : α) : Bool := decide (x < -t.epsilon)

def areEqual (x y : α) : Bool := x == y || decide (Scalar.abs (x - y) ≤ t.epsilon)

def gt (x y : α) : Bool := !(x == y) && decide (t.epsilon < x - y)

def ge (x y : α) : Bool := x == y || decide (-t.epsilon ≤ x - y)

def lt (x y : α) : Bool := t.gt y x

def le (x y : α) : Bool := t.ge y x

/-- Whether `x` is in `[lower, upper]`. -/
def within (x lower upper : α) : Bool := t.ge x lower && t.le x upper

end Tolerance

end ReluSolver
