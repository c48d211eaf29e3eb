import ReluSolver.Duration

/-!
Monitors: what may end a search before it is finished.

A search counts its steps and asks the monitors after each of them. They see what the world shows at
that moment: whether somebody wants the search to quit, and how long it has been running.
-/

namespace ReluSolver

/-- What the world shows a search at one moment. -/
structure Signals where
  quit : Bool
  /-- The time since the search was entered. -/
  elapsed : Duration

inductive StopReason where
  | interrupted
  | timeLimit
deriving DecidableEq, Repr

inductive SearchCommand where
  | proceed
  | terminate (reason : StopReason)
deriving DecidableEq, Repr

def StopReason.text : StopReason → String
  | interrupted => "Interrupt signal received"
  | timeLimit => "time limit reached"

def SearchCommand.text : SearchCommand → String
  | proceed => "Continue"
  | terminate reason => "Terminate: " ++ reason.text

inductive Monitor where
  /-- Ends a search that shall quit. -/
  | interrupt
  /-- Ends a search that has been running for `limit`, unless that is zero. The clock is looked at
  only after steps whose number has no bit in common with `mask`. -/
  | timeLimit (limit : Duration) (mask steps : Nat)
deriving Repr

namespace Monitor

/-- The time is looked at every eight steps. -/
def defaultMask : Nat := 7

def name : Monitor → String
  | interrupt => "InterruptMonitor"
  | timeLimit _ _ _ => "TimeLimitMonitor"

def text (m : Monitor) : String := "SearchMonitor(" ++ m.name ++ ")"

/-- Starts counting anew. -/
def enter : Monitor → Monitor
  | interrupt => interrupt
  | timeLimit limit mask _ => timeLimit limit mask 0

def step : Monitor → Monitor
  | interrupt => interrupt
  | timeLimit limit mask steps => timeLimit limit mask (steps + 1)

def isUnbounded? : Monitor → Option Bool
  | interrupt => none
  | timeLimit limit _ _ => some limit.isZero

def command (signals : Signals) : Monitor → SearchCommand
  | interrupt => if signals.quit then .terminate .interrupted else .proceed
  | timeLimit limit mask steps =>
    let isOver := limit.nanoseconds ≤ signals.elapsed.nanoseconds
    if !limit.isZero && steps &&& mask == 0 && isOver then .terminate .timeLimit else .proceed

/-- The first of several monitors that wants to stop decides. -/
def commandOf (signals : Signals) : List Monitor → SearchCommand
  | [] => .proceed
  | m :: rest =>
    match m.command signals with
    | .proceed => commandOf signals rest
    | stop => stop

/-- What several monitors are called together. -/
def groupName : String := "CompositeMonitor"

def groupText (ms : List Monitor) : String :=
  groupName ++ "([" ++ ", ".intercalate (ms.map name) ++ "])"

end Monitor

end ReluSolver
