import ReluSolver.Basis.Factorization
import ReluSolver.Bounds.Store
import ReluSolver.Presolve.VariableMap
import ReluSolver.Query.Basic
import ReluSolver.Search.Heuristic
import ReluSolver.Search.Monitor

/-!
What a search engine is for its users: it loads a query, and then decides regions of it one by one.

A decision goes on in steps. `start` begins it, each `advance` carries it on under the signals of
that moment, and the first of them that gives an exit code ends it.
-/

namespace ReluSolver

/-- How the last decision of an engine ended. -/
inductive ExitCode where
  | notDone
  | sat
  | unsat
  | timeout
  | quitRequested
  | error
deriving DecidableEq, Repr

namespace ExitCode

def text : ExitCode → String
  | notDone => "NotDone"
  | sat => "Sat"
  | unsat => "Unsat"
  | timeout => "Timeout"
  | quitRequested => "QuitRequested"
  | error => "Error"

/-- Whether the region is decided. -/
def isConclusive (c : ExitCode) : Bool := c == sat || c == unsat

end ExitCode

/-- Why an engine cannot work on a query. -/
inductive EngineError where
  | noQuery
  | factorization (cause : FactorError)
  | bound (cause : BoundError)
  | invalidQuery (reason : String)
deriving DecidableEq, Repr

def EngineError.message : EngineError → String
  | noQuery => "no query has been processed"
  | factorization cause => s!"basis factorization failed: {cause.message}"
  | bound cause => s!"bound store failed: {cause.message}"
  | invalidQuery reason => s!"invalid query: {reason}"

/-- Why an operation of an engine has no result. -/
inductive Abort where
  | failure (cause : EngineError)
  | fault (cause : Fault)
deriving DecidableEq, Repr

/-- Where a search of a region stands before its first branch. A search of a smaller region may
start from there. -/
structure TreeState (α : Type) where
  bounds : Snapshot α
  factorization : Option (Factorization α)

class SearchEngine (ε : Type) (α : outParam Type) where
  /-- Loads a query; `false` if it was seen to have no solution. -/
  process : Query α → (simplified : Bool) → EStateM Abort ε Bool
  /-- Begins to decide the region of a split; a zero time limit is none. -/
  start : CaseSplit α → (limit : Duration) → Option (TreeState α) →
    EStateM Fault ε (Option ExitCode)
  /-- Goes on with what was begun. -/
  advance : Signals → EStateM Fault ε (Option ExitCode)
  /-- Sets what the engine draws its random numbers from, and how it branches. -/
  diversify : UInt64 → BranchingHeuristic → ε → ε
  /-- The query that is searched. -/
  query? : ε → Option (Query α)
  /-- The way from a solution of the searched query to the loaded one. -/
  map? : ε → Option (VariableMap α)
  /-- The solution, if the last decision found one. -/
  solution? : ε → Option (Assignment α)
  treeState? : ε → Option (TreeState α)

namespace SearchEngine

variable {ε α : Type} [SearchEngine ε α]

/-- Goes on until the region is decided, for a number of steps. At step `n` the world shows
`world n`. -/
def advanceFor (world : Nat → Signals) (step : Nat) : (fuel : Nat) → EStateM Fault ε ExitCode
  | 0 => throw .unfinished
  | fuel + 1 => do
    match ← advance (world step) with
    | some code => return code
    | none => advanceFor world (step + 1) fuel

/-- Decides a region in at most `fuel` steps. -/
def solveWithin (fuel : Nat) (world : Nat → Signals) (split : CaseSplit α) (limit : Duration)
    (state : Option (TreeState α)) : EStateM Fault ε ExitCode := do
  match ← start split limit state with
  | some code => return code
  | none => advanceFor world 1 fuel

end SearchEngine

end ReluSolver
