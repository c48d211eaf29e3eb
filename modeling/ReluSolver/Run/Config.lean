import ReluSolver.Division.Strategy
import ReluSolver.Duration
import ReluSolver.Search.Config

/-!
The settings of a run. What a setting may be is checked where it is set.
-/

namespace ReluSolver

structure RunConfig (α : Type) where
  verbosity : Nat
  /-- The time limit of the run; zero is none. -/
  timeout : Duration
  workers : Nat
  /-- The region is first divided into two to this power. -/
  initialDivides : Nat
  /-- The time limit of the first subqueries; zero is none. -/
  initialTimeout : Duration
  /-- A subquery out of time is divided into two to this power. -/
  onlineDivides : Nat
  /-- The depth from which on a subquery is not divided any more. -/
  onlineDivideDepth : Nat
  /-- How much longer the next time limit is. -/
  timeoutFactor : Float
  /-- Whether a subquery is searched from the tree state of its parent. -/
  restoreTreeStates : Bool
  strategy : DivideStrategy
  /-- From this number of inputs on, intervals are not bisected by default. -/
  intervalThreshold : Nat
  pollInterval : Duration
  engine : SearchConfig α
deriving BEq

namespace RunConfig

variable {α : Type}

def default [Scalar α] : RunConfig α where
  verbosity := 0
  timeout := .zero
  workers := 4
  initialDivides := 0
  initialTimeout := .ofSeconds 5
  onlineDivides := 2
  onlineDivideDepth := 8
  timeoutFactor := 1.5
  restoreTreeStates := false
  strategy := .auto
  intervalThreshold := 10
  pollInterval := .ofMilliseconds 100
  engine := .default

/-- The greatest power of two that a region may be divided into at once. -/
def mostDivides : Nat := 20

/-- There is at least one worker. -/
def withWorkers (c : RunConfig α) (workers : Nat) : RunConfig α :=
  { c with workers := max workers 1 }

def withInitialDivides (c : RunConfig α) (divides : Nat) : Except Fault (RunConfig α) :=
  if divides ≤ mostDivides then .ok { c with initialDivides := divides }
  else .error (.tooManyInitialDivides divides mostDivides)

def withOnlineDivides (c : RunConfig α) (divides : Nat) : Except Fault (RunConfig α) :=
  if divides ≤ mostDivides then .ok { c with onlineDivides := divides }
  else .error (.tooManyOnlineDivides divides mostDivides)

/-- Whether a number may be a timeout factor. -/
def isTimeoutFactor (factor : Float) : Bool := Scalar.isFinite factor && decide (1.0 ≤ factor)

def withTimeoutFactor (c : RunConfig α) (factor : Float) : Except Fault (RunConfig α) :=
  if isTimeoutFactor factor then .ok { c with timeoutFactor := factor }
  else .error (.invalidTimeoutFactor (Double.text factor))

/-- The interval is at least a millisecond. -/
def withPollInterval (c : RunConfig α) (interval : Duration) : RunConfig α :=
  { c with pollInterval := interval.max (.ofMilliseconds 1) }

def withFactorization (c : RunConfig α) (kind : FactorKind) : RunConfig α :=
  { c with engine := { c.engine with kind := kind } }

/-- The number of subqueries that the first division gives. -/
def initialSubqueries (c : RunConfig α) : Nat := Nat.pow 2 c.initialDivides

/-- The number of subqueries that a division in the course of the run gives. -/
def onlineChildren (c : RunConfig α) : Nat := Nat.pow 2 c.onlineDivides

def text (c : RunConfig α) : String :=
  let initial := s!"initial: 2^{c.initialDivides} @ {c.initialTimeout.text}"
  let online := s!"online: 2^{c.onlineDivides} up to depth {c.onlineDivideDepth}"
  let factor := Double.text c.timeoutFactor
  s!"DncConfig(workers: {c.workers}, timeout: {c.timeout.text}, {initial}, {online}, " ++
    s!"factor: {factor}, strategy: {c.strategy.text}, factorization: {c.engine.kind.text})"

end RunConfig

end ReluSolver
