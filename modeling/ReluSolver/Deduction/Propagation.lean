import ReluSolver.Deduction.Phase
import ReluSolver.Deduction.Row
import ReluSolver.Query.Basic

/-!
Propagation: bounds from the equations and the ReLUs of a query together, round after round.
-/

namespace ReluSolver

variable {α : Type} [Scalar α]

/-- The rules of each ReLU in turn. -/
def Relu.propagateAll (t : Tolerance α) : List Relu → Deduction α Nat
  | [] => return 0
  | r :: rest => do
    let news ← r.propagate t
    return news + (← propagateAll t rest)

namespace Effort

variable (effort : Effort α)

/-- One pass over the equations, the rows derived from them, and the ReLUs. -/
def propagateOnce (equations derived : List (Equation α)) (relus : List Relu) :
    Deduction α Nat := do
  let fromEquations ← effort.examineRows equations false
  let fromDerived ← effort.examineRows derived false
  return fromEquations + fromDerived + (← Relu.propagateAll effort.tolerance relus)

/-- Passes until one gives nothing new, and at most `rounds` of them. -/
def propagateFor (equations derived : List (Equation α)) (relus : List Relu) :
    (rounds : Nat) → Deduction α Nat
  | 0 => return 0
  | rounds + 1 => do
    let news ← effort.propagateOnce equations derived relus
    if news == 0 then return 0
    return news + (← propagateFor equations derived relus rounds)

def propagate (equations derived : List (Equation α)) (relus : List Relu) : Deduction α Nat :=
  effort.propagateFor equations derived relus effort.rounds

/-- Propagates the constraints of a query, and rows that its equations imply. -/
def propagateQuery (q : Query α) (derived : List (Equation α)) : Deduction α Nat :=
  effort.propagate q.equations derived q.relus

end Effort

/-- Tightens a fresh store to the bounds of a query, and then by a split. -/
def Query.enter (q : Query α) (split : CaseSplit α) : Store.Action Fault α Outcome := do
  let outcome ← Store.tightenFrom 0 q.bounds.toList
  if outcome.isInfeasible then return outcome
  return outcome.merge (← Store.tightenAll split.tightenings)

/-- A store with the bounds that a query has within a split, and whether they are feasible. -/
def Query.storeWithin (q : Query α) (split : CaseSplit α) (t : Tolerance α) :
    Except Fault (Outcome × Store α) := do
  let empty ← (Store.new t).initialize? q.size
  match q.enter split empty with
  | .ok outcome s => return (outcome, s)
  | .error cause _ => throw cause

end ReluSolver
