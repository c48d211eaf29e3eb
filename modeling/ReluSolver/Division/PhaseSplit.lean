import ReluSolver.Deduction.Propagation
import ReluSolver.Division.Bisection
import ReluSolver.Search.Heuristic

/-!
Dividing a region by the phase of a ReLU.
-/

namespace ReluSolver.PhaseSplit

variable {α : Type} [Scalar α]

/-- The ReLU to split on: the most balanced one that propagation leaves unfixed. There is none in a
region that propagation shows to be empty. -/
def selectRelu (q : Query α) (effort : Effort α) (split : CaseSplit α) :
    Except Fault (Option Nat) := do
  let (outcome, s) ← q.storeWithin split effort.tolerance
  if outcome.isInfeasible then return none
  match effort.propagateQuery q [] s with
  | .error (.fault cause) _ => throw cause
  | .error _ _ => return none
  | .ok _ s => BranchingHeuristic.polarity.select q s effort.tolerance

/-- The two phases of the selected ReLU; a region without one is bisected. -/
def divide (q : Query α) (effort : Effort α) (split : CaseSplit α) :
    Except Fault (List (CaseSplit α)) := do
  match ← selectRelu q effort split with
  | none => Bisection.divide q split
  | some index =>
    let r ← q.relu index
    return [split.extended (← r.phaseSplit .active).tightenings,
      split.extended (← r.phaseSplit .inactive).tightenings]

end ReluSolver.PhaseSplit
