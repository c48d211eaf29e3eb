import ReluSolver.Number.Numeral
import ReluSolver.Run.Config

/-!
The arguments of the program: the name of a query file, and options in any order.

An option takes its value from the same argument after an equals sign, or from the next argument.
After `--` nothing is an option any more. Each option is given at most once.
-/

namespace ReluSolver.CommandLine

/-- What the arguments ask for. -/
inductive Request where
  | help
  | version
  | run (file : String) (config : RunConfig Float)

/-- What was read of the arguments so far. -/
structure Reading where
  file : Option String
  /-- The names of the options that were given. -/
  given : List String
  /-- The option that the next argument is the value of. -/
  pending : Option String
  /-- Whether every further argument is a file. -/
  filesOnly : Bool
  config : RunConfig Float

/-- A whole number with an optional sign, at most `most`. -/
def readSigned? (most : Nat) (value : String) : Option Nat :=
  match value.toList with
  | '-' :: digits => if digits.head? = some '+' then none else readAtMost 0 digits
  | digits => readAtMost most digits
where
  readAtMost (most : Nat) (digits : List Char) : Option Nat :=
    (readIndex? digits).filter (· ≤ most)

def readNatural? (value : String) : Option Nat := readIndex? value.toList

def readTimeoutFactor? (value : String) : Option Float :=
  ((Numeral.ofChars? value.toList).map Numeral.toScalar).filter RunConfig.isTimeoutFactor

/-- Sets the option with a name to a value. -/
def setOption? (name value : String) (c : RunConfig Float) : Option (RunConfig Float) := do
  match name with
  | "verbosity" => return { c with verbosity := ← readSigned? 255 value }
  | "timeout" => return { c with timeout := .ofSeconds (← readNatural? value) }
  | "num-workers" => return c.withWorkers (← readNatural? value)
  | "initial-divides" =>
    return { c with initialDivides := ← readSigned? RunConfig.mostDivides value }
  | "initial-timeout" => return { c with initialTimeout := .ofSeconds (← readNatural? value) }
  | "online-divides" =>
    return { c with onlineDivides := ← readSigned? RunConfig.mostDivides value }
  | "online-divide-depth" => return { c with onlineDivideDepth := ← readNatural? value }
  | "timeout-factor" => return { c with timeoutFactor := ← readTimeoutFactor? value }
  | "divide-strategy" => return { c with strategy := ← DivideStrategy.ofText? value }
  | "interval-splitting-threshold" => return { c with intervalThreshold := ← readNatural? value }
  | "poll-interval" => return c.withPollInterval (.ofMilliseconds (← readNatural? value))
  | "factorization" => return c.withFactorization (← FactorKind.ofText? value)
  | _ => none

/-- The option without a value. -/
def restoreOption : String := "restore-tree-states"

def optionNames : List String :=
  [restoreOption, "verbosity", "timeout", "num-workers", "initial-divides", "initial-timeout",
    "online-divides", "online-divide-depth", "timeout-factor", "divide-strategy",
    "interval-splitting-threshold", "poll-interval", "factorization"]

def isOption (name : String) : Bool := optionNames.contains name

namespace Reading

def start : Reading := ⟨none, [], none, false, RunConfig.default⟩

/-- Notes that an option was given; `none` if it was given before. -/
def note? (r : Reading) (name : String) : Option Reading :=
  if r.given.contains name then none else some { r with given := name :: r.given }

def set? (r : Reading) (name value : String) : Option Reading := do
  let config ← setOption? name value r.config
  { r with config := config, pending := none }.note? name

/-- An option without a value is switched on, or waits for its value. -/
def open? (r : Reading) (name : String) : Option Reading :=
  if name = restoreOption then
    { r with config := { r.config with restoreTreeStates := true } }.note? name
  else
    some { r with pending := some name }

/-- The name of the file, which is not empty. -/
def withFile? (r : Reading) (file : String) : Option Reading :=
  if r.file.isSome || file.isEmpty then none else some { r with file := some file }

/-- The request when all arguments have been read. -/
def finish? (r : Reading) : Option Request :=
  if r.pending.isSome then none else r.file.map fun file => .run file r.config

end Reading

/-- The name of an option, and its value if the argument has one. -/
def splitOption (chars : List Char) : String × Option String :=
  let (name, rest) := chars.span (· != '=')
  (String.ofList name, match rest with
    | _ :: value => some (String.ofList value)
    | [] => none)

/-- Whether an argument is taken for an option, and never for a value. -/
def looksLikeOption (argument : String) : Bool :=
  match argument.toList with
  | ['-'] => false
  | '-' :: _ => true
  | _ => false

/-- Goes on with what was read; reading ends with no request if nothing was. -/
def proceed (r : Option Reading) : Except (Option Request) Reading :=
  match r with
  | some r => .ok r
  | none => .error none

/-- Reads one argument. Reading ends at a request that needs no more arguments, and at a wrong
argument. -/
def readArgument (r : Reading) (argument : String) : Except (Option Request) Reading :=
  match r.pending with
  | some name =>
    proceed (if looksLikeOption argument then none else r.set? name argument)
  | none =>
    if r.filesOnly || !looksLikeOption argument then proceed (r.withFile? argument)
    else
      match argument.toList with
      | ['-', '-'] => .ok { r with filesOnly := true }
      | '-' :: '-' :: body =>
        match splitOption body with
        | ("help", none) => .error (some .help)
        | ("version", none) => .error (some .version)
        | (name, none) => proceed (if isOption name then r.open? name else none)
        | (name, some value) => proceed (r.set? name value)
      | '-' :: 'h' :: _ => .error (some .help)
      | '-' :: 'V' :: _ => .error (some .version)
      | _ => .error none

/-- What the arguments ask for; `none` if they are wrong. -/
def parse? (arguments : List String) : Option Request :=
  match arguments.foldlM readArgument Reading.start with
  | .ok r => r.finish?
  | .error request => request

end ReluSolver.CommandLine
