import ReluSolver.CommandLine.Respond

/-!
The program: reads a query from a file, decides it under the clock of the system, and prints the
verdict.
-/

namespace ReluSolver.CommandLine

abbrev Engine := DepthFirst Float

/-- The time since a moment on the clock of the system. -/
def timeSince (start : Nat) : IO Duration := do
  return ⟨(← IO.monoNanosNow) - start⟩

/-- Does rounds of a run until it has ended. -/
partial def runToEnd (start : Nat) (r : Run Engine Float) :
    IO (Except Fault (RunOutcome Float)) := do
  let now ← timeSince start
  match r.ended? with
  | some reason => return r.conclude reason now
  | none => runToEnd start (r.round now)

/-- Decides a query under the clock of the system. -/
def decideNow (config : RunConfig Float) (q : Query Float) :
    IO (Except Fault (RunOutcome Float)) := do
  let start ← IO.monoNanosNow
  match Run.prepare config (fun _ => DepthFirst.new config.engine) false q with
  | .error cause => return .error cause
  | .ok (_, .decided verdict) => return .ok (Run.decidedEarly verdict (← timeSince start))
  | .ok (_, .ready r) => runToEnd start r

/-- The lines of a query file, or why they cannot be had. -/
def readSource (file : String) : IO (Except Reading.SourceError Reading.Source) := do
  try
    return .ok (.ofBytes (← IO.FS.readBinFile file))
  catch
    | .noFileOrDirectory .. => return .error .missing
    | cause => return .error (.unavailable (toString cause))

end ReluSolver.CommandLine

open ReluSolver.CommandLine in
def main (arguments : List String) : IO UInt32 := do
  let response ← respond ⟨readSource, decideNow⟩ arguments
  response.lines.forM IO.println
  response.error.forM IO.eprintln
  return UInt32.ofNat response.code
