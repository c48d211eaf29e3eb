import ReluSolver.Deduction.Basic
import ReluSolver.Query.Relu

/-!
Bounds from ReLUs. A ReLU `f = max(0, b)` is linear on either side of zero: it is active where
`b ≥ 0` and `f = b`, and inactive where `b ≤ 0` and `f = 0`.
-/

namespace ReluSolver

/-- What the bounds say about the side on which a ReLU is. -/
inductive Phase where
  | active
  | inactive
  | unfixed
deriving DecidableEq, Repr

def Phase.text : Phase → String
  | active => "active"
  | inactive => "inactive"
  | unfixed => "unfixed"

namespace Relu

open Deduction

variable {α : Type} [Scalar α]

/-- The phase for given bounds of the input and the output. -/
def phaseWithin (t : Tolerance α) (b f : Interval α) : Phase :=
  if t.ge b.lower 0 || t.isPositive f.lower then .active
  else if t.le b.upper 0 || t.le f.upper 0 then .inactive
  else .unfixed

def phase (r : Relu) (s : Store α) (t : Tolerance α) : Except Fault Phase :=
  return phaseWithin t (← s.interval r.b) (← s.interval r.f)

/-- The tightenings that force a phase. -/
def phaseSplit (r : Relu) : Phase → Except Fault (CaseSplit α)
  | .active => .ok ⟨[.lower r.b 0, .lower r.f 0]⟩
  | .inactive => .ok ⟨[.upper r.b 0, .upper r.f 0]⟩
  | .unfixed => .error .unfixedPhase

/-- A bound of one variable, copied to another one. -/
def copyLower (source target : Variable) (s : Store α) : Except Fault (Tightening α) :=
  return .lower target (← s.lower source)

def copyUpper (source target : Variable) (s : Store α) : Except Fault (Tightening α) :=
  return .upper target (← s.upper source)

/-- The rules that hold in any phase. -/
def commonRules (r : Relu) : List (Store α → Except Fault (Tightening α)) :=
  [fun _ => .ok (.lower r.f 0), copyLower r.b r.f,
    fun s => return .upper r.f (outputOf (← s.upper r.b)), copyUpper r.f r.b]

/-- The rules that hold in one phase. -/
def phaseRules (r : Relu) : Phase → List (Store α → Except Fault (Tightening α))
  | .active =>
    [fun _ => .ok (.lower r.b 0), copyLower r.f r.b, copyLower r.b r.f, copyUpper r.b r.f,
      copyUpper r.f r.b]
  | .inactive => [fun _ => .ok (.upper r.f 0), fun _ => .ok (.upper r.b 0)]
  | .unfixed => []

/-- Applies the rules of a ReLU once; gives the number of new bounds. -/
def propagate (r : Relu) (t : Tolerance α) : Deduction α Nat := do
  let common ← deriveEach r.commonRules
  let phase ← observe (r.phase · t)
  return common + (← deriveEach (r.phaseRules phase))

end Relu

end ReluSolver
