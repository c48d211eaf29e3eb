import ReluSolver.Query.Equation
import ReluSolver.Number.Interval

/-!
Case splits: the tightenings that cut one region out of the space of all assignments.
-/

namespace ReluSolver

inductive Side where
  | lower
  | upper
deriving DecidableEq, Repr

def Side.text : Side → String
  | lower => "LB"
  | upper => "UB"

/-- `var >= value` on the lower side, `var <= value` on the upper one. -/
structure Tightening (α : Type) where
  side : Side
  var : Variable
  value : α

namespace Tightening

variable {α : Type}

def lower (var : Variable) (value : α) : Tightening α := ⟨.lower, var, value⟩

def upper (var : Variable) (value : α) : Tightening α := ⟨.upper, var, value⟩

/-- The bounds of the variable after the tightening, each side keeping the stricter value. -/
def narrow [Scalar α] (bounds : Interval α) (t : Tightening α) : Interval α :=
  match t.side with
  | .lower => { bounds with lower := Scalar.max bounds.lower t.value }
  | .upper => { bounds with upper := Scalar.min bounds.upper t.value }

def text [Scalar α] (t : Tightening α) : String :=
  match t.side with
  | .lower => s!"{t.var.text} >= {Scalar.text t.value}"
  | .upper => s!"{t.var.text} <= {Scalar.text t.value}"

end Tightening

/-- Tightenings in the order in which they were made. -/
structure CaseSplit (α : Type) where
  tightenings : List (Tightening α)

namespace CaseSplit

variable {α : Type}

def empty : CaseSplit α := ⟨[]⟩

def isEmpty (s : CaseSplit α) : Bool := s.tightenings.isEmpty

/-- The split with further tightenings at its end. -/
def extended (s : CaseSplit α) (extra : List (Tightening α)) : CaseSplit α :=
  ⟨s.tightenings ++ extra⟩

/-- The bounds of `var` inside the split, where `bounds` are those outside it. -/
def boundsOf [Scalar α] (s : CaseSplit α) (var : Variable) (bounds : Interval α) : Interval α :=
  (s.tightenings.filter (·.var == var)).foldl Tightening.narrow bounds

def text [Scalar α] (s : CaseSplit α) : String :=
  "[" ++ ", ".intercalate (s.tightenings.map Tightening.text) ++ "]"

end CaseSplit

end ReluSolver
