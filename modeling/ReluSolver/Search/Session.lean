import ReluSolver.Basis.Crash
import ReluSolver.Search.Config
import ReluSolver.Search.Engine
import ReluSolver.Search.Randomness
import ReluSolver.Search.Statistics

/-!
What a search has in hand: the problem, which stays as it is, and the session, which every step of
the search changes.
-/

namespace ReluSolver

structure Problem (α : Type) where
  query : Query α
  basis : CrashBasis α
  /-- Rows that the equations of the query imply. -/
  derived : List (Equation α)
  effort : Effort α
  config : SearchConfig α
  heuristic : BranchingHeuristic

/-- A ReLU that was branched on, with the phase that is still to be searched. -/
structure Frame where
  relu : Nat
  remaining : Option Phase
deriving DecidableEq, Repr

/-- A search in progress. The store has one open checkpoint for each frame. -/
structure Session (α : Type) where
  store : Store α
  /-- The branches taken, the innermost first. -/
  stack : List Frame
  factorization : Option (Factorization α)
  random : RandomStream
  monitors : List Monitor
  /-- Whether a leaf was neither a conflict nor a solution. -/
  inconclusive : Bool
  statistics : SearchStatistics

/-- A step of a search. -/
abbrev Searching (α β : Type) := EStateM Abort (Session α) β

namespace Searching

variable {α β : Type}

def ofFault (result : Except Fault β) : Searching α β :=
  match result with
  | .ok value => pure value
  | .error cause => throw (.fault cause)

def ofFactor (result : Except FactorError β) : Searching α β :=
  match result with
  | .ok value => pure value
  | .error cause => throw (.failure (.factorization cause))

/-- What a function of the store gives. -/
def observe (f : Store α → Except Fault β) : Searching α β := do
  ofFault (f (← get).store)

/-- Does a step on the store. -/
def onStore (action : Store.Action Fault α β) : Searching α β := fun s =>
  match action s.store with
  | .ok value store => .ok value { s with store := store }
  | .error cause store => .error (.fault cause) { s with store := store }

/-- Does something that changes the random stream. -/
def draw (f : RandomStream → Except Fault (β × RandomStream)) : Searching α β := do
  let (value, random) ← ofFault (f (← get).random)
  modify ({ · with random := random })
  return value

def count (change : SearchStatistics → SearchStatistics) : Searching α Unit :=
  modify fun s => { s with statistics := change s.statistics }

end Searching

end ReluSolver
