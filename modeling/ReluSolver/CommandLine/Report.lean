import ReluSolver.Reading.QueryText
import ReluSolver.Run.Verdict

/-!
What the program prints.
-/

namespace ReluSolver.CommandLine

/-- Everything that the program shows of one call. -/
structure Response where
  code : Nat
  lines : List String
  /-- The line on the error channel. -/
  error : Option String

namespace Response

def versionLine : String := "sextant 0.1.0"

def version : Response := ⟨0, [versionLine], none⟩

/-- Each option as it is written, and what it is for. -/
def optionHelp : List (String × String) :=
  [("    --verbosity <VERBOSITY>",
      "Logging detail, 0 to 3. `RUST_LOG` takes precedence when set [default: 0]"),
    ("    --timeout <TIMEOUT>", "Global timeout in seconds, 0 for none [default: 0]"),
    ("    --num-workers <NUM_WORKERS>", "[default: 4]"),
    ("    --initial-divides <INITIAL_DIVIDES>", "Start with 2^n subqueries [default: 0]"),
    ("    --initial-timeout <INITIAL_TIMEOUT>",
      "Local timeout of the initial subqueries in seconds, 0 for none [default: 5]"),
    ("    --online-divides <ONLINE_DIVIDES>",
      "A timed out subquery is divided into 2^n children [default: 2]"),
    ("    --online-divide-depth <ONLINE_DIVIDE_DEPTH>", "[default: 8]"),
    ("    --timeout-factor <TIMEOUT_FACTOR>",
      "Multiplies the local timeout of every requeued subquery [default: 1.5]"),
    ("    --restore-tree-states",
      "Start divided subqueries from the state their parent reached"),
    ("    --divide-strategy <DIVIDE_STRATEGY>",
      "`auto`, `largest-interval` or `polarity` [default: auto]"),
    ("    --interval-splitting-threshold <INTERVAL_SPLITTING_THRESHOLD>",
      "`auto` bisects intervals below this many inputs [default: 10]"),
    ("    --poll-interval <POLL_INTERVAL>",
      "How often the manager checks for termination, in milliseconds [default: 100]"),
    ("    --factorization <FACTORIZATION>",
      "`forrest-tomlin` or `dense-lu` [default: forrest-tomlin]"),
    ("-h, --help", "Print help"),
    ("-V, --version", "Print version")]

def helpLines : List String :=
  ["Decides ReLU network queries with parallel divide-and-conquer", "",
    "Usage: sextant [OPTIONS] <FILE>", "", "Arguments:", "  <FILE>  Query file", "", "Options:"] ++
    optionHelp.flatMap fun (option, purpose) =>
      ["  " ++ option, "          " ++ purpose]

def help : Response := ⟨0, helpLines, none⟩

/-- The response to wrong arguments. -/
def misuse : Response := ⟨2, [], none⟩

/-- The response when the program itself breaks down. -/
def breakdown : Response := ⟨101, [], none⟩

def unloadable {α : Type} [Scalar α] (e : Reading.LoadError α) : Response :=
  match e with
  | .fault _ => breakdown
  | _ => ⟨1, [], some s!"error: {e.message}"⟩

variable {α : Type} [Scalar α]

/-- The values of some variables under a title. -/
def group (o : RunOutcome α) (title : String) (xs : List Variable) : List String :=
  s!"{title}:" :: xs.map fun x =>
    let value := ((o.value? x).map Scalar.text).getD "?"
    s!"  {x.text} = {value}"

/-- The verdict, and for a satisfied query the values of its inputs and outputs. -/
def ofOutcome (q : Query α) (o : RunOutcome α) : Response :=
  let values :=
    if o.verdict = .sat then group o "Input" q.inputs ++ group o "Output" q.outputs else []
  ⟨if o.verdict = .sat || o.verdict = .unsat then 0 else 1, o.verdict.text :: values, none⟩

end Response

end ReluSolver.CommandLine
