import ReluSolver.Deduction.InverseRow
import ReluSolver.Presolve.Simplify
import ReluSolver.Search.Tree

/-!
The depth-first search engine.

It loads a query with a crash basis, the factorized basis and the rows of the inverse. Each decision
starts from the bounds of the query, or from an earlier tree state, and leaves what was loaded as it
was, except that a tree state may bring its own factorization.
-/

namespace ReluSolver

structure Loaded (α : Type) where
  query : Query α
  map : VariableMap α
  basis : CrashBasis α
  factorization : Option (Factorization α)
  derived : List (Equation α)

structure DepthFirst (α : Type) where
  config : SearchConfig α
  seed : UInt64
  heuristic : BranchingHeuristic
  loaded : Option (Loaded α)
  exitCode : ExitCode
  solution : Option (Assignment α)
  rootState : Option (TreeState α)
  statistics : SearchStatistics
  /-- The search in progress. -/
  session : Option (Problem α × Session α)

namespace DepthFirst

variable {α : Type} [Scalar α]

def defaultSeed : UInt64 := 1995

/-- An engine without a query. -/
def new (config : SearchConfig α) : DepthFirst α where
  config := config
  seed := defaultSeed
  heuristic := .polarity
  loaded := none
  exitCode := .notDone
  solution := none
  rootState := none
  statistics := .zero
  session := none

/-- Forgets the query and everything that was found out about it. -/
def reset (e : DepthFirst α) : DepthFirst α :=
  { new e.config with seed := e.seed, heuristic := e.heuristic }

/-- An operation of the engine. -/
abbrev Action (α β : Type) := EStateM Abort (DepthFirst α) β

def ofFault {β : Type} (result : Except Fault β) : Action α β :=
  match result with
  | .ok value => pure value
  | .error cause => throw (.fault cause)

def ofFactor {β : Type} (result : Except FactorError β) : Action α β :=
  match result with
  | .ok value => pure value
  | .error cause => throw (.failure (.factorization cause))

/-- The factorized basis and the rows of its inverse; none of them for a singular basis. -/
def factorize (c : SearchConfig α) (t : Tolerance α) (b : CrashBasis α) :
    Except FactorError (Option (Factorization α) × List (Equation α)) :=
  if b.dimension = 0 then .ok (none, [])
  else
    match (Factorization.create c.kind b.dimension c.factor).setBasis b.matrix.toFlat with
    | .error (.singular _) => .ok (none, [])
    | .error cause => .error cause
    | .ok f => do
      let rows ← if f.isExplicit then b.explicitRows t f else b.implicitRows t f
      return (some f, rows)

/-- Loads a query as it is. -/
def load (q : Query α) (map : VariableMap α) : Action α Bool := do
  let c := (← get).config
  let t ← ofFault c.tolerance
  match CrashBasis.compute q t with
  | .error _ =>
    modify ({ · with exitCode := .unsat })
    return false
  | .ok basis =>
    let (factorization, derived) ← ofFactor (factorize c t basis)
    modify ({ · with loaded := some ⟨q, map, basis, factorization, derived⟩ })
    return true

def process (q : Query α) (simplified : Bool) : Action α Bool := do
  modify reset
  if !simplified then return ← load q (VariableMap.identity q.size)
  let effort ← ofFault (← get).config.effort
  match Presolve.simplify q effort with
  | .ok (simpler, map) => load simpler map
  | .error .conflict =>
    modify ({ · with exitCode := .unsat })
    return false
  | .error (.factorization cause) => throw (.failure (.factorization cause))
  | .error (.fault cause) => throw (.fault cause)

/-- Tightens every variable to its bounds in a query. Bounds without a value are left to be found by
propagation. -/
def enterBounds (x : Variable) : List (Interval α) → Store.Action Fault α Unit
  | [] => return ()
  | bounds :: rest => do
    let _ ← Store.tightenBounds x bounds
    enterBounds (x + 1) rest

/-- Does a step on a store that the engine does not keep. -/
def onStore {β : Type} (s : Store α) (action : Store.Action Fault α β) : Action α (β × Store α) :=
  match action s with
  | .ok value s => return (value, s)
  | .error cause _ => throw (.fault cause)

/-- Takes over the factorization of a tree state, if it fits the loaded one. -/
def takeFactorization (state : TreeState α) : Action α Unit :=
  modify fun e =>
    match e.loaded, state.factorization with
    | some loaded, some source =>
      match loaded.factorization with
      | none => e
      | some target =>
        match target.restoreFrom source with
        | .ok f => { e with loaded := some { loaded with factorization := some f } }
        | .error _ => e
    | _, _ => e

/-- Starts a store from a tree state; `none` if that is infeasible. -/
def warmStart (s : Store α) (state : Option (TreeState α)) : Action α (Option (Store α)) := do
  match state with
  | none => return some s
  | some state =>
    let (result, s) ← onStore s (Store.applySnapshot state.bounds)
    match result with
    | .error cause => throw (.failure (.bound cause))
    | .ok outcome =>
      if outcome.isInfeasible then return none
      takeFactorization state
      return some s

/-- Propagates the root of the region of a split; `none` if it is infeasible. -/
def propagateRoot (effort : Effort α) (split : CaseSplit α) (s : Store α) (q : Query α)
    (derived : List (Equation α)) : Action α (Option (Store α)) := do
  let (outcome, s) ← onStore s (Store.tightenAll split.tightenings)
  if outcome.isInfeasible then return none
  match effort.propagateQuery q derived s with
  | .ok news s =>
    modify fun e =>
      { e with statistics := { e.statistics with propagated := e.statistics.propagated + news } }
    return some s
  | .error .conflict _ => return none
  | .error (.factorization cause) _ => throw (.failure (.factorization cause))
  | .error (.fault cause) _ => throw (.fault cause)

/-- Brings the search of a region before its first node; an exit code if it is infeasible. -/
def prepare (split : CaseSplit α) (limit : Duration) (state : Option (TreeState α)) :
    Action α (Option ExitCode) := do
  let effort ← ofFault (← get).config.effort
  let some loaded := (← get).loaded | throw (.failure .noQuery)
  let q := loaded.query
  let empty ← ofFault ((Store.new effort.tolerance).initialize? q.size)
  let (_, bounded) ← onStore empty (enterBounds 0 q.bounds.toList)
  let some warm ← warmStart bounded state | return some .unsat
  let some root ← propagateRoot effort split warm q loaded.derived | return some .unsat
  modify fun e =>
    let factorization := e.loaded.bind (·.factorization)
    let problem := ⟨q, loaded.basis, loaded.derived, effort, e.config, e.heuristic⟩
    let session : Session α := {
      store := root
      stack := []
      factorization := factorization
      random := .ofSeed e.seed
      monitors := [.interrupt, .timeLimit limit Monitor.defaultMask 0]
      inconclusive := false
      statistics := e.statistics }
    { e with
      rootState := some ⟨root.snapshot, factorization⟩
      session := some (problem, session) }
  return none

/-- Ends a decision with a code. -/
def finish (e : DepthFirst α) (code : ExitCode) : DepthFirst α :=
  { e with exitCode := code, session := none }

/-- Begins a decision. -/
def start (split : CaseSplit α) (limit : Duration) (state : Option (TreeState α)) :
    EStateM Fault (DepthFirst α) (Option ExitCode) := fun e =>
  let fresh :=
    { e with solution := none, rootState := none, statistics := .zero, session := none }
  match prepare split limit state fresh with
  | .ok none e => .ok none e
  | .ok (some code) e => .ok (some code) (e.finish code)
  | .error (.failure _) e => .ok (some .error) (e.finish .error)
  | .error (.fault cause) e => .error cause e

/-- Keeps what a step of the search counted and did to the factorization. -/
def keep (e : DepthFirst α) (p : Problem α) (s : Session α) (elapsed : Duration) : DepthFirst α :=
  { e with
    loaded := e.loaded.map ({ · with factorization := s.factorization })
    statistics := { s.statistics with duration := elapsed }
    session := some (p, s) }

/-- Goes on with a decision; one that is not in progress has ended before. -/
def advance (signals : Signals) : EStateM Fault (DepthFirst α) (Option ExitCode) := fun e =>
  match e.session with
  | none => .ok (some e.exitCode) e
  | some (p, s) =>
    match p.advance signals s with
    | .ok none s => .ok none (e.keep p s signals.elapsed)
    | .ok (some ending) s =>
      let ended := (e.keep p s signals.elapsed).finish ending.code
      .ok (some ending.code) { ended with solution := ending.solution? }
    | .error (.failure _) s => .ok (some .error) ((e.keep p s signals.elapsed).finish .error)
    | .error (.fault cause) s => .error cause { e.keep p s signals.elapsed with session := none }

def diversify (seed : UInt64) (heuristic : BranchingHeuristic) (e : DepthFirst α) : DepthFirst α :=
  { e with seed := seed, heuristic := heuristic }

/-- The solution, if the last decision ended with one. -/
def solution? (e : DepthFirst α) : Option (Assignment α) :=
  if e.exitCode = .sat then e.solution else none

instance : SearchEngine (DepthFirst α) α where
  process := process
  start := start
  advance := advance
  diversify := diversify
  query? e := e.loaded.map (·.query)
  map? e := e.loaded.map (·.map)
  solution? := solution?
  treeState? e := e.rootState

/-- The most nodes of a search: every ReLU is branched on at most once on a path. -/
def nodeBound (e : DepthFirst α) : Nat :=
  Nat.pow 2 ((e.loaded.map fun loaded => loaded.query.relus.length).getD 0 + 1)

/-- Decides the region of a split. At step `n` of the search the world shows `world n`. -/
def solve (world : Nat → Signals) (split : CaseSplit α) (limit : Duration)
    (state : Option (TreeState α)) : EStateM Fault (DepthFirst α) ExitCode := fun e =>
  SearchEngine.solveWithin e.nodeBound world split limit state e

end DepthFirst

end ReluSolver
