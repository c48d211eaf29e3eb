import ReluSolver.CommandLine.Arguments
import ReluSolver.CommandLine.Report
import ReluSolver.Run.Manager

/-!
One call of the program: the query file named by the arguments is read, the query is decided, and
the response tells the verdict.
-/

namespace ReluSolver.CommandLine

/-- What the program needs from outside, under the effects of `m`. -/
structure Surroundings (m : Type → Type) where
  /-- The content of the file with a name. -/
  read : String → m (Except Reading.SourceError Reading.Source)
  /-- Decides a query. -/
  decide : RunConfig Float → Query Float → m (Except Fault (RunOutcome Float))

variable {m : Type → Type} [Monad m]

/-- The query in a file. -/
def loadFile (s : Surroundings m) (file : String) :
    m (Except (Reading.LoadError Float) (Query Float)) := do
  match ← s.read file with
  | .ok source => return Reading.load source true
  | .error cause => return .error (.source cause)

/-- Decides the query in a file. -/
def respondToFile (s : Surroundings m) (file : String) (config : RunConfig Float) : m Response := do
  match ← loadFile s file with
  | .error cause => return .unloadable cause
  | .ok q =>
    match ← s.decide config q with
    | .ok outcome => return .ofOutcome q outcome
    | .error _ => return .breakdown

/-- The response to the arguments of the program. -/
def respond (s : Surroundings m) (arguments : List String) : m Response := do
  match parse? arguments with
  | none => return .misuse
  | some .help => return .help
  | some .version => return .version
  | some (.run file config) => respondToFile s file config

end ReluSolver.CommandLine
