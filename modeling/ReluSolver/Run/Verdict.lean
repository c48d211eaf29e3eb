import ReluSolver.Duration
import ReluSolver.Query.Equation
import ReluSolver.Search.Engine

/-!
What a run came to.
-/

namespace ReluSolver

inductive Verdict where
  | sat
  | unsat
  | error
  | notDone
  | quitRequested
  | timeout
deriving DecidableEq, Repr

namespace Verdict

def text : Verdict → String
  | sat => "sat"
  | unsat => "unsat"
  | error => "ERROR"
  | notDone => "NOT_DONE"
  | quitRequested => "QUIT_REQUESTED"
  | timeout => "TIMEOUT"

def ofExitCode : ExitCode → Verdict
  | .notDone => notDone
  | .sat => sat
  | .unsat => unsat
  | .timeout => timeout
  | .quitRequested => quitRequested
  | .error => error

/-- What was observed in a run. -/
structure Evidence where
  foundSat : Bool
  timeoutReached : Bool
  quitRequested : Bool
  failed : Bool
  /-- The number of subqueries that nobody resolved. -/
  unresolved : Int

/-- A solution decides; then a reason to stop; and without either nothing may be unresolved. -/
def decide (e : Evidence) : Except Fault Verdict :=
  if e.foundSat then .ok sat
  else if e.timeoutReached then .ok timeout
  else if e.quitRequested then .ok quitRequested
  else if e.failed then .ok error
  else if e.unresolved = 0 then .ok unsat
  else .error (.endedUnresolved e.unresolved)

end Verdict

structure RunStatistics where
  workers : Nat
  initialSubqueries : Nat
  /-- The number of decisions made by all workers together. -/
  solved : Nat
  /-- The number of subqueries that were divided again. -/
  splits : Nat
  /-- The number of subqueries that were put back with more time. -/
  requeues : Nat
  errors : Nat
  duration : Duration
deriving DecidableEq, Repr

namespace RunStatistics

def zero : RunStatistics := ⟨0, 0, 0, 0, 0, 0, .zero⟩

def text (s : RunStatistics) : String :=
  let seconds := Double.fixed s.duration.toSeconds 3
  String.join [
    "DnC Statistics:\n",
    s!"  Workers: {s.workers}\n",
    s!"  Initial Subqueries: {s.initialSubqueries}\n",
    s!"  Subqueries Solved: {s.solved}\n",
    s!"  Splits: {s.splits}\n",
    s!"  Requeues: {s.requeues}\n",
    s!"  Errors: {s.errors}\n",
    s!"  Solve Duration (secs): {seconds}\n"]

end RunStatistics

/-- The outcome of a run. Only a satisfied one has a solution. -/
structure RunOutcome (α : Type) where
  verdict : Verdict
  /-- Variables of the query with their values; the last value of a variable counts. -/
  solution : Option (List (Variable × α))
  statistics : RunStatistics

namespace RunOutcome

variable {α : Type}

def make (verdict : Verdict) (solution : Option (List (Variable × α)))
    (statistics : RunStatistics) : Except Fault (RunOutcome α) :=
  if solution.isNone || verdict = .sat then .ok ⟨verdict, solution, statistics⟩
  else .error (.solutionWithoutSat verdict.text)

/-- The value of a variable in the solution. -/
def value? (o : RunOutcome α) (x : Variable) : Option α := do
  (← o.solution).reverse.lookup x

def text (o : RunOutcome α) : String := s!"Result: {o.verdict.text}\n{o.statistics.text}"

end RunOutcome

end ReluSolver
