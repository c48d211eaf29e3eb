import ReluSolver.Division.Basic
import ReluSolver.Run.Config
import ReluSolver.Run.Verdict

/-!
How workers share the work of a run.

Every worker goes through the same steps, and each step reads or writes the shared state once.
Between two steps of a worker any number of steps of other workers may come. What an engine answers
is left open here: it reaches a worker as a reaction.
-/

namespace ReluSolver

/-- What all workers share. -/
structure Shared (α : Type) where
  queue : WorkQueue α
  /-- The number of subqueries that are still to be resolved. -/
  unresolved : Int
  cancelled : Bool

/-- What a worker did in a run. -/
structure Tally where
  solved : Nat
  splits : Nat
  requeues : Nat
  errors : Nat
  foundSat : Bool
deriving DecidableEq, Repr

def Tally.zero : Tally := ⟨0, 0, 0, 0, false⟩

/-- What the answer of the engine means for the subquery that it was asked about. -/
inductive Reaction (α : Type) where
  /-- It has no solution. -/
  | resolved
  /-- It has one. -/
  | found
  /-- It takes too long, and is replaced by its parts. -/
  | divided (children : List (Subquery α))
  /-- It takes too long, and is put back with more time. -/
  | requeued (subquery : Subquery α)
  /-- The engine was told to quit. -/
  | dropped
  /-- The engine failed. -/
  | failed
  /-- The worker broke down. -/
  | crashed

/-- The next step of a worker. -/
inductive Duty (α : Type) where
  /-- Look whether the run is cancelled. -/
  | look
  /-- Take a subquery. -/
  | take
  /-- Wait for the engine to decide a subquery. -/
  | decide (subquery : Subquery α)
  /-- Count the parts of a subquery as unresolved in its place. -/
  | announce (children : List (Subquery α))
  /-- Put subqueries into the queue. -/
  | hand (subqueries : List (Subquery α))
  /-- Count a subquery as resolved. -/
  | resolve
  /-- Cancel the run, because nothing is unresolved. -/
  | close
  /-- Cancel the run, because a solution was found. -/
  | report
  | stopped
  | crashed

namespace Duty

variable {α : Type}

/-- Whether there is no next step. -/
def isOver : Duty α → Bool
  | stopped | crashed => true
  | _ => false

end Duty

structure Worker (α : Type) where
  duty : Duty α
  tally : Tally
  /-- The subqueries that were taken and then neither resolved nor put back. -/
  abandoned : List (Subquery α)

namespace Worker

variable {α : Type}

def new : Worker α := ⟨.look, .zero, []⟩

/-- A step on the shared state. A worker that waits for its engine, or has ended, does nothing. -/
def act (w : Worker α) (s : Shared α) : Worker α × Shared α :=
  match w.duty with
  | .look => ({ w with duty := if s.cancelled then .stopped else .take }, s)
  | .take =>
    match s.queue.pop? with
    | none => ({ w with duty := .look }, s)
    | some (subquery, rest) => ({ w with duty := .decide subquery }, { s with queue := rest })
  | .announce children =>
    ({ w with duty := .hand children },
      { s with unresolved := s.unresolved + ((children.length : Int) - 1) })
  | .hand subqueries =>
    ({ w with duty := .look }, { s with queue := s.queue.extend subqueries })
  | .resolve =>
    ({ w with duty := if s.unresolved = 1 then .close else .look },
      { s with unresolved := s.unresolved - 1 })
  | .close => ({ w with duty := .look }, { s with cancelled := true })
  | .report => ({ w with duty := .stopped }, { s with cancelled := true })
  | .decide _ | .stopped | .crashed => (w, s)

/-- Learns the answer about the subquery that was given to the engine. -/
def hear (w : Worker α) (reaction : Reaction α) : Worker α :=
  match w.duty with
  | .decide subquery =>
    let lost := subquery :: w.abandoned
    let counted := { w.tally with solved := w.tally.solved + 1 }
    match reaction with
    | .resolved => { w with duty := .resolve, tally := counted }
    | .found => ⟨.report, { counted with foundSat := true }, lost⟩
    | .divided children =>
      { w with duty := .announce children, tally := { counted with splits := counted.splits + 1 } }
    | .requeued again =>
      { w with duty := .hand [again], tally := { counted with requeues := counted.requeues + 1 } }
    | .dropped => ⟨.look, counted, lost⟩
    | .failed =>
      { w with duty := .resolve, tally := { counted with errors := counted.errors + 1 } }
    | .crashed => ⟨.crashed, w.tally, lost⟩
  | _ => w

/-- What the worker reports in the end; a crashed one reports nothing. -/
def report? (w : Worker α) : Option Tally :=
  match w.duty with
  | .crashed => none
  | _ => some w.tally

end Worker

/-- All workers with what they share. -/
structure Crew (α : Type) where
  shared : Shared α
  workers : Array (Worker α)

/-- What can happen to a crew. -/
inductive Event (α : Type) where
  /-- A worker does its next step. -/
  | act (worker : Nat)
  /-- An engine answers its worker. -/
  | hear (worker : Nat) (reaction : Reaction α)
  /-- The run is cancelled from outside. -/
  | cancel

namespace Crew

variable {α : Type}

/-- Workers who start with some subqueries. -/
def start (workers : Nat) (subqueries : List (Subquery α)) : Crew α where
  shared := ⟨⟨subqueries⟩, subqueries.length, false⟩
  workers := Array.replicate workers Worker.new

/-- What happens; an event of a worker that is not there changes nothing. -/
def step (c : Crew α) : Event α → Crew α
  | .act i =>
    match c.workers[i]? with
    | none => c
    | some w =>
      let (w, shared) := w.act c.shared
      ⟨shared, c.workers.setIfInBounds i w⟩
  | .hear i reaction => { c with workers := c.workers.modify i (·.hear reaction) }
  | .cancel => { c with shared := { c.shared with cancelled := true } }

/-- Whether all workers have ended. -/
def isOver (c : Crew α) : Bool := c.workers.all (·.duty.isOver)

/-- Whether some worker has ended. -/
def hasEnded (c : Crew α) : Bool := c.workers.any (·.duty.isOver)

/-- The reports of the workers that did not crash, in order. -/
def tallies (c : Crew α) : List Tally := c.workers.toList.filterMap (·.report?)

/-- The number of workers that crashed. -/
def crashes (c : Crew α) : Nat := c.workers.size - c.tallies.length

end Crew

/-- What a worker does with the answers of its engine. -/
structure WorkPlan (α : Type) where
  division : Division α
  children : Nat
  divideDepth : Nat
  timeoutFactor : Float
  restoreTreeStates : Bool

namespace WorkPlan

variable {α : Type} [Scalar α] (plan : WorkPlan α)

/-- Divides a subquery that is out of time, or puts it back, each time with a longer limit. -/
def prolong (subquery : Subquery α) (state : Option (TreeState α)) : Reaction α :=
  let timeout := subquery.timeout.scale plan.timeoutFactor
  if subquery.depth < plan.divideDepth then
    match plan.division.subqueries plan.children subquery.id subquery.depth subquery.split
      timeout with
    | .error _ => .crashed
    | .ok children =>
      .divided (if plan.restoreTreeStates then children.map (·.withState state) else children)
  else
    .requeued (subquery.withTimeout timeout)

/-- What an exit code means for a subquery; `state` is the tree state that the engine left. -/
def react (subquery : Subquery α) (code : ExitCode) (state : Option (TreeState α)) : Reaction α :=
  match code with
  | .unsat => .resolved
  | .sat => .found
  | .timeout => plan.prolong subquery state
  | .quitRequested => .dropped
  | .error | .notDone => .failed

end WorkPlan

end ReluSolver
