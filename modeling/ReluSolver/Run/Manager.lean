import ReluSolver.Run.Worker
import ReluSolver.Search.DepthFirst

/-!
Managing a run.

A base engine simplifies the query once. Every worker has an engine of its own with the simplified
query, and the region is divided into the first subqueries. Then the workers do their steps, and
the manager looks now and then for a reason to end the run: it is cancelled by a worker, out of
time, asked to quit, or short of a worker. The manager then cancels it, makes the engines quit, and
waits for the workers to end.
-/

namespace ReluSolver

/-- Why the manager ended a run. -/
inductive EndReason where
  | cancelled
  | timeoutReached
  | quitRequested
  | workerStopped
deriving DecidableEq, Repr

/-- The next step of the manager. -/
inductive ManagerDuty where
  /-- Look for a reason to end the run. -/
  | poll
  /-- Cancel the run. -/
  | cancel (reason : EndReason)
  /-- Make the engines quit. -/
  | quit (reason : EndReason)
  /-- Wait for the workers. -/
  | join (reason : EndReason)
deriving DecidableEq, Repr

/-- The engine of a worker. -/
structure Seat (ε : Type) where
  engine : ε
  /-- When it began with the subquery that it works on, if it has begun. -/
  since : Option Duration

/-- The diversification of the workers: two base seeds, which take turns every two workers. -/
def baseSeeds : Vector UInt64 2 := #v[1995, 1219]

/-- The seed and the branching heuristic of a worker. -/
def diversification (worker : Nat) : UInt64 × BranchingHeuristic :=
  let base := baseSeeds[worker / 2 % 2]
  (base + UInt64.ofNat (worker / 4), if worker % 2 = 0 then .polarity else .earliestRelu)

/-- A run in progress. -/
structure Run (ε α : Type) where
  config : RunConfig α
  plan : WorkPlan α
  /-- The way back from the simplified query. -/
  map : Option (VariableMap α)
  initialSubqueries : Nat
  crew : Crew α
  seats : Array (Seat ε)
  manager : ManagerDuty
  /-- Whether the run is asked to quit. -/
  quitRequested : Bool
  /-- Whether the engines are told to quit. -/
  enginesQuit : Bool

/-- Something that happens in a run, with the time since its beginning. -/
inductive Move where
  | manager (now : Duration)
  | worker (index : Nat) (now : Duration)

namespace Run

variable {ε α : Type} [SearchEngine ε α]

/-- The first reason to end the run, if there is one. -/
def endReason? (r : Run ε α) (now : Duration) : Option EndReason :=
  let limit := r.config.timeout
  if r.crew.shared.cancelled then some .cancelled
  else if !limit.isZero && decide (limit.nanoseconds ≤ now.nanoseconds) then some .timeoutReached
  else if r.quitRequested then some .quitRequested
  else if r.crew.hasEnded then some .workerStopped
  else none

def moveManager (r : Run ε α) (now : Duration) : Run ε α :=
  match r.manager with
  | .poll =>
    match r.endReason? now with
    | none => r
    | some reason => { r with manager := .cancel reason }
  | .cancel reason => { r with manager := .quit reason, crew := r.crew.step .cancel }
  | .quit reason => { r with manager := .join reason, enginesQuit := true }
  | .join _ => r

/-- The time that an engine has worked on its subquery. -/
def elapsed (since now : Duration) : Duration := ⟨now.nanoseconds - since.nanoseconds⟩

/-- Lets an engine begin with a subquery, or go on with it. -/
def runEngine (r : Run ε α) (seat : Seat ε) (subquery : Subquery α) (now : Duration) :
    EStateM Fault ε (Option ExitCode) :=
  match seat.since with
  | none =>
    let state := if r.plan.restoreTreeStates then subquery.state else none
    SearchEngine.start subquery.split subquery.timeout state
  | some since => SearchEngine.advance ⟨r.enginesQuit, elapsed since now⟩

variable [Scalar α]

/-- Lets the engine of a worker work on its subquery, and the worker hear of the answer. -/
def moveEngine (r : Run ε α) (index : Nat) (seat : Seat ε) (subquery : Subquery α)
    (now : Duration) : Run ε α :=
  match r.runEngine seat subquery now seat.engine with
  | .ok none engine =>
    let working := { seat with engine := engine, since := some (seat.since.getD now) }
    { r with seats := r.seats.setIfInBounds index working }
  | .ok (some code) engine =>
    let reaction := r.plan.react subquery code (SearchEngine.treeState? engine)
    { r with
      seats := r.seats.setIfInBounds index ⟨engine, none⟩
      crew := r.crew.step (.hear index reaction) }
  | .error _ engine =>
    { r with
      seats := r.seats.setIfInBounds index ⟨engine, none⟩
      crew := r.crew.step (.hear index .crashed) }

def moveWorker (r : Run ε α) (index : Nat) (now : Duration) : Run ε α :=
  match r.crew.workers[index]?, r.seats[index]? with
  | some w, some seat =>
    match w.duty with
    | .decide subquery => r.moveEngine index seat subquery now
    | _ => { r with crew := r.crew.step (.act index) }
  | _, _ => r

def move (r : Run ε α) : Move → Run ε α
  | .manager now => r.moveManager now
  | .worker index now => r.moveWorker index now

/-- The reason for which a run has ended, when all its workers have. -/
def ended? (r : Run ε α) : Option EndReason :=
  match r.manager with
  | .join reason => if r.crew.isOver then some reason else none
  | _ => none

/-- The solution of the worker that found one, for the variables of the query. -/
def solution? (r : Run ε α) : Option (List (Variable × α)) := do
  let winner ← (List.range r.seats.size).find? fun i =>
    (r.crew.workers[i]?.bind (·.report?)).any (·.foundSat)
  let values ← SearchEngine.solution? (← r.seats[winner]?).engine
  let mapped ← match r.map with
    | some map => map.mapSolution? values
    | none => some values
  return mapped.toList.mapIdx fun x value => (x, value)

/-- What an ended run came to. -/
def conclude (r : Run ε α) (reason : EndReason) (duration : Duration) :
    Except Fault (RunOutcome α) := do
  let tallies := r.crew.tallies
  let total (count : Tally → Nat) := tallies.foldr (fun t sum => count t + sum) 0
  let errors := total (·.errors) + r.crew.crashes
  let verdict ← Verdict.decide {
    foundSat := tallies.any (·.foundSat)
    timeoutReached := reason = .timeoutReached
    quitRequested := reason = .quitRequested || r.quitRequested
    failed := errors != 0
    unresolved := r.crew.shared.unresolved }
  let statistics := {
    workers := r.seats.size
    initialSubqueries := r.initialSubqueries
    solved := total (·.solved)
    splits := total (·.splits)
    requeues := total (·.requeues)
    errors := errors
    duration := duration }
  RunOutcome.make verdict (if verdict = .sat then r.solution? else none) statistics

end Run

/-- What preparing a run comes to, beside the engines made for it. -/
inductive Preparation (ε α : Type) where
  /-- The query is decided, or cannot be run, before any search. -/
  | decided (verdict : Verdict)
  | ready (run : Run ε α)

namespace Run

variable {ε α : Type} [SearchEngine ε α] [Scalar α]

/-- The greatest number of workers that there is room for. -/
def mostWorkers : Nat := 0x100000000

/-- How loading the workers' engines ended. -/
inductive Loading where
  | done
  | stopped (verdict : Verdict)

/-- Makes the engines of `count` workers, from worker `index` on, up to the first one that does not
take the query. `make` gives the engine with a number, where the base engine has number zero. -/
def loadEngines (make : Nat → ε) (q : Query α) (index : Nat) :
    (count : Nat) → Except Fault (List ε × Loading)
  | 0 => return ([], .done)
  | count + 1 => do
    let (seed, heuristic) := diversification index
    let engine := SearchEngine.diversify seed heuristic (make (index + 1))
    match SearchEngine.process q false engine with
    | .ok true engine =>
      let (engines, loading) ← loadEngines make q (index + 1) count
      return (engine :: engines, loading)
    | .ok false engine => return ([engine], .stopped .unsat)
    | .error (.failure _) engine => return ([engine], .stopped .error)
    | .error (.fault cause) _ => throw cause

/-- Divides the region of the simplified query among the workers. -/
def begin (config : RunConfig α) (q simplified : Query α) (map : Option (VariableMap α))
    (engines : List ε) (quitRequested : Bool) : Except Fault (Run ε α) := do
  let effort ← config.engine.effort
  let strategy := config.strategy.resolve q.inputs.length config.intervalThreshold
  let division : Division α := ⟨simplified, strategy, effort⟩
  let region ← division.wholeRegion
  let subqueries ←
    division.subqueries config.initialSubqueries "" 0 region config.initialTimeout
  let plan : WorkPlan α := {
    division := division
    children := config.onlineChildren
    divideDepth := config.onlineDivideDepth
    timeoutFactor := config.timeoutFactor
    restoreTreeStates := config.restoreTreeStates }
  return {
    config := config
    plan := plan
    map := map
    initialSubqueries := subqueries.length
    crew := Crew.start engines.length subqueries
    seats := (engines.map (⟨·, none⟩)).toArray
    manager := .poll
    quitRequested := quitRequested
    enginesQuit := false }

/-- Prepares a run; also gives the engines that were made, the base engine first. -/
def prepare (config : RunConfig α) (make : Nat → ε) (quitRequested : Bool) (q : Query α) :
    Except Fault (List ε × Preparation ε α) := do
  match SearchEngine.process q true (make 0) with
  | .error (.fault cause) _ => throw cause
  | .error (.failure _) base => return ([base], .decided .error)
  | .ok false base => return ([base], .decided .unsat)
  | .ok true base =>
    let some simplified := SearchEngine.query? base | return ([base], .decided .error)
    if mostWorkers ≤ config.workers then return ([base], .decided .error)
    let (engines, loading) ← loadEngines make simplified 0 config.workers
    match loading with
    | .stopped verdict => return (base :: engines, .decided verdict)
    | .done =>
      let run ← begin config q simplified (SearchEngine.map? base) engines quitRequested
      return ([base], .ready run)

/-- The outcome of a run that was decided before any search. -/
def decidedEarly (verdict : Verdict) (duration : Duration) : RunOutcome α :=
  ⟨verdict, none, { RunStatistics.zero with duration := duration }⟩

/-- A move of the manager, and then one of each worker. -/
def round (r : Run ε α) (now : Duration) : Run ε α :=
  (List.range r.seats.size).foldl (fun r i => r.move (.worker i now)) (r.move (.manager now))

/-- Goes on for at most `fuel` rounds; round `n` takes place at time `clock n`. -/
def finish (clock : Nat → Duration) (n : Nat) :
    (fuel : Nat) → Run ε α → Except Fault (RunOutcome α × Run ε α)
  | 0, _ => throw .unfinished
  | fuel + 1, r =>
    match r.ended? with
    | some reason => return (← r.conclude reason (clock n), r)
    | none => finish clock (n + 1) fuel (r.round (clock n))

/-- Decides a query, in at most `fuel` rounds. Also gives all engines, the base engine first. -/
def solve (config : RunConfig α) (make : Nat → ε) (quitRequested : Bool) (clock : Nat → Duration)
    (fuel : Nat) (q : Query α) : Except Fault (RunOutcome α × List ε) := do
  match ← prepare config make quitRequested q with
  | (engines, .decided verdict) => return (decidedEarly verdict (clock 0), engines)
  | (engines, .ready r) =>
    let (outcome, r) ← finish clock 0 fuel r
    return (outcome, engines ++ r.seats.toList.map (·.engine))

end Run

end ReluSolver
