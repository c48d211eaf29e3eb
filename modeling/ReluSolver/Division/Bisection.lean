import ReluSolver.Choice
import ReluSolver.Query.Basic

/-!
Dividing a region along its widest input interval.
-/

namespace ReluSolver.Bisection

variable {α : Type} [Scalar α]

/-- An input and its bounds within a region. -/
structure InputBounds (α : Type) where
  var : Variable
  bounds : Interval α

/-- The input with the widest interval; of equally wide ones the first. -/
def widestInput? (q : Query α) (split : CaseSplit α) :
    Except Fault (Option (InputBounds α)) := do
  let candidates ← q.inputs.mapM fun x => return ⟨x, split.boundsOf x (← q.interval x)⟩
  return firstBest? (fun (candidate best : InputBounds α) =>
    !decide (candidate.bounds.width ≤ best.bounds.width)) candidates

/-- Cuts the widest input interval in two. Without inputs both parts are the whole region. -/
def divide (q : Query α) (split : CaseSplit α) : Except Fault (List (CaseSplit α)) := do
  match ← widestInput? q split with
  | none => return [split, split]
  | some widest =>
    let cut := widest.bounds.splitPoint
    return [split.extended [.upper widest.var cut], split.extended [.lower widest.var cut]]

end ReluSolver.Bisection
