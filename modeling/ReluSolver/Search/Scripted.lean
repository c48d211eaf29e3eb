import ReluSolver.Deduction.Propagation
import ReluSolver.Search.Engine

/-!
An engine that follows a script instead of searching. It shows what a run does with given answers,
and keeps a record of what it was asked.
-/

namespace ReluSolver

/-- The answer to a request to decide a region. -/
inductive Cue where
  | code (code : ExitCode)
  /-- Satisfied, but without a solution. -/
  | satWithoutSolution
  /-- Work until told to quit. -/
  | awaitQuit
  /-- Break down. -/
  | crash
deriving DecidableEq, Repr

/-- The answer to a request to load a query. -/
inductive Reception where
  | accepted
  | infeasible
  | rejected (reason : String)
  /-- Accepted, but the query is not there afterwards. -/
  | forgotten
deriving DecidableEq, Repr

structure Script (α : Type) where
  reception : Reception
  /-- The answers, of which the last one is given again and again. -/
  cues : List Cue
  /-- Whether a loaded query has a variable map. -/
  hasMap : Bool
  /-- The split whose bounds are the tree state, if there is one. -/
  state : Option (CaseSplit α)

/-- A request to decide a region. -/
structure Request (α : Type) where
  split : CaseSplit α
  limit : Duration
  state : Option (Snapshot α)

structure Scripted (α : Type) where
  script : Script α
  query : Option (Query α)
  solution : Option (Assignment α)
  /-- Whether each query was to be simplified. -/
  loads : List Bool
  diversifications : List (UInt64 × BranchingHeuristic)
  requests : List (Request α)

namespace Scripted

variable {α : Type} [Scalar α]

def new (script : Script α) : Scripted α := ⟨script, none, none, [], [], []⟩

def process (q : Query α) (simplified : Bool) : EStateM Abort (Scripted α) Bool := do
  modify fun e => { e with loads := e.loads ++ [simplified] }
  match (← get).script.reception with
  | .accepted =>
    modify ({ · with query := some q })
    return true
  | .forgotten => return true
  | .infeasible => return false
  | .rejected reason => throw (.failure (.invalidQuery reason))

/-- The cue for the request after `count` others. -/
def cueAt (cues : List Cue) (count : Nat) : Option Cue := cues[min count (cues.length - 1)]?

/-- The lower bounds of all variables within a split. -/
def lowerCorner (q : Query α) (split : CaseSplit α) : Assignment α :=
  (q.bounds.mapIdx fun x bounds => (split.boundsOf x bounds).lower).toArray

def start (split : CaseSplit α) (limit : Duration) (state : Option (TreeState α)) :
    EStateM Fault (Scripted α) (Option ExitCode) := do
  let e ← get
  let request : Request α := ⟨split, limit, state.map (·.bounds)⟩
  set { e with solution := none, requests := e.requests ++ [request] }
  match cueAt e.script.cues e.requests.length with
  | none => throw .missingEntry
  | some .awaitQuit => return none
  | some .crash => throw .engineCrash
  | some .satWithoutSolution => return some .sat
  | some (.code code) =>
    if code = .sat then
      modify fun e => { e with solution := e.query.map (lowerCorner · split) }
    return some code

def advance (signals : Signals) : EStateM Fault (Scripted α) (Option ExitCode) :=
  return if signals.quit then some .quitRequested else none

/-- The bounds of a query within a split, with the default tolerance. -/
def boundsWithin? (q : Query α) (split : CaseSplit α) : Option (Snapshot α) :=
  match q.storeWithin split ⟨Tolerance.defaultEpsilon⟩ with
  | .ok (_, s) => some s.snapshot
  | .error _ => none

def treeState? (e : Scripted α) : Option (TreeState α) := do
  return ⟨← boundsWithin? (← e.query) (← e.script.state), none⟩

instance : SearchEngine (Scripted α) α where
  process := process
  start := start
  advance := advance
  diversify seed heuristic e :=
    { e with diversifications := e.diversifications ++ [(seed, heuristic)] }
  query? e := e.query
  map? e :=
    if e.script.hasMap then e.query.map fun q => VariableMap.identity q.size else none
  solution? e := e.solution
  treeState? := treeState?

end Scripted

end ReluSolver
