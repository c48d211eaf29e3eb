import ReluSolver.Deduction.Propagation
import ReluSolver.Search.Candidate

/-!
Searching the phases of the ReLUs depth first.

A node propagates, looks for a solution, and else branches on an unfixed ReLU: one phase is entered
at once, the other one when the search comes back. A node without an unfixed ReLU is a leaf. When
the last phase is done, the region has no solution unless some leaf was inconclusive.
-/

namespace ReluSolver

/-- What a node turned out to be. -/
inductive NodeOutcome (α : Type) where
  | satisfied (values : Assignment α)
  | conflict
  | inconclusive
  | branch (relu : Nat)

/-- How a search ended. -/
inductive Ending (α : Type) where
  | satisfied (values : Assignment α)
  /-- Every leaf is a conflict. -/
  | exhausted
  /-- The time is over, or some leaf is inconclusive. -/
  | undecided
  | quit

def Ending.code {α : Type} : Ending α → ExitCode
  | satisfied _ => .sat
  | exhausted => .unsat
  | undecided => .timeout
  | quit => .quitRequested

def Ending.solution? {α : Type} : Ending α → Option (Assignment α)
  | satisfied values => some values
  | _ => none

namespace Problem

open Searching

variable {α : Type} [Scalar α] (p : Problem α)

/-- Propagates to the next fixpoint; `false` on a conflict. -/
def propagateNode : Searching α Bool := fun s =>
  match p.effort.propagateQuery p.query p.derived s.store with
  | .ok news store =>
    let n := s.statistics
    .ok true { s with store := store, statistics := { n with propagated := n.propagated + news } }
  | .error .conflict store =>
    let n := s.statistics
    .ok false { s with store := store, statistics := { n with conflicts := n.conflicts + 1 } }
  | .error (.factorization cause) store =>
    .error (.failure (.factorization cause)) { s with store := store }
  | .error (.fault cause) store => .error (.fault cause) { s with store := store }

def visitNode : Searching α (NodeOutcome α) := do
  count fun n => { n with nodes := n.nodes + 1 }
  if !(← p.propagateNode) then return .conflict
  if let some values ← p.findSolution then return .satisfied values
  match ← observe (p.heuristic.select p.query · p.effort.tolerance) with
  | some relu => return .branch relu
  | none =>
    count fun n => { n with inconclusive := n.inconclusive + 1 }
    modify ({ · with inconclusive := true })
    return .inconclusive

/-- Opens a checkpoint and forces a phase; `false`, counted as a conflict, if that is infeasible. -/
def enterPhase (relu : Nat) (phase : Phase) : Searching α Bool := do
  modify fun s => { s with store := s.store.pushCheckpoint }
  let r ← ofFault (p.query.relu relu)
  let split ← ofFault (r.phaseSplit phase)
  let outcome ← onStore (Store.tightenAll split.tightenings)
  if outcome.isInfeasible then
    count fun n => { n with conflicts := n.conflicts + 1 }
  return !outcome.isInfeasible

/-- Closes the innermost checkpoint. -/
def closeCheckpoint : Searching α Unit := do
  let store ← observe Store.popCheckpoint
  modify ({ · with store := store })

/-- Leaves finished frames, up to a phase that can be entered; `false` if there is none. -/
def backtrackFrom : List Frame → Searching α Bool
  | [] => do
    modify ({ · with stack := [] })
    return false
  | frame :: outer => do
    closeCheckpoint
    match frame.remaining with
    | none => backtrackFrom outer
    | some phase =>
      if ← p.enterPhase frame.relu phase then
        modify ({ · with stack := { frame with remaining := none } :: outer })
        return true
      closeCheckpoint
      backtrackFrom outer

def backtrack : Searching α Bool := do
  p.backtrackFrom (← get).stack

/-- Opens a frame for a ReLU and enters its likelier phase; `false` if nothing is left to search. -/
def branch (relu : Nat) : Searching α Bool := do
  let r ← ofFault (p.query.relu relu)
  let bounds ← observe (·.interval r.b)
  let (first, second) : Phase × Phase :=
    if bounds.polarity < 0 then (.inactive, .active) else (.active, .inactive)
  modify fun s =>
    let stack := ⟨relu, some second⟩ :: s.stack
    let n := s.statistics
    { s with stack := stack, statistics := { n with maxDepth := max n.maxDepth stack.length } }
  if ← p.enterPhase relu first then return true
  p.backtrack

/-- Goes on after a node; gives the ending if the node was the last one. -/
def proceed (outcome : NodeOutcome α) : Searching α (Option (Ending α)) := do
  let goesOn ← match outcome with
    | .satisfied values => return some (.satisfied values)
    | .branch relu => p.branch relu
    | .conflict | .inconclusive => p.backtrack
  if goesOn then return none
  return some (if (← get).inconclusive then .undecided else .exhausted)

/-- One step of the search: a node, unless a monitor ends the search before it. -/
def advance (signals : Signals) : Searching α (Option (Ending α)) := do
  modify fun s => { s with monitors := s.monitors.map Monitor.step }
  match Monitor.commandOf signals (← get).monitors with
  | .terminate _ => return some (if signals.quit then .quit else .undecided)
  | .proceed => p.proceed (← p.visitNode)

end Problem

end ReluSolver
