import ReluSolver.Query.Builder
import ReluSolver.Number.Numeral
import ReluSolver.Reading.Token

/-!
Reading a query from text.

The words are, in order: the numbers of variables, equations, ReLUs, inputs and outputs; the inputs;
the outputs; a lower and an upper bound for every variable; every equation as its number of terms,
its scalar, and a coefficient and a variable for each term; and the input and output of every ReLU.
-/

namespace ReluSolver.Reading

/-- The part of the text in which a word is expected. -/
inductive Section where
  | header
  | inputs
  | outputs
  | bounds
  | equations
  | relus
deriving DecidableEq, Repr

def Section.text : Section → String
  | header => "header"
  | inputs => "input variables"
  | outputs => "output variables"
  | bounds => "bounds"
  | equations => "equations"
  | relus => "relus"

/-- The two kinds of words. -/
inductive WordKind where
  | index
  | number
deriving DecidableEq, Repr

def WordKind.text : WordKind → String
  | index => "usize"
  | number => "f64"

/-- Why the bytes of a text cannot be had. -/
inductive SourceError where
  | missing
  | undecodable
  | unavailable (reason : String)
deriving DecidableEq, Repr

def SourceError.text : SourceError → String
  | missing => "No such file or directory (os error 2)"
  | undecodable => "stream did not contain valid UTF-8"
  | unavailable reason => reason

/-- Why a text is not a query. -/
inductive LoadError (α : Type) where
  | source (cause : SourceError)
  | unexpectedEnd (part : Section)
  | unreadable (word : String) (kind : WordKind) (part : Section)
  | variableOutOfRange (index size : Nat)
  | invalidBounds (index : Nat) (bounds : Interval α)
  /-- The words are well-formed, but building the query broke one of its rules. -/
  | fault (fault : Fault)

def LoadError.message {α : Type} [Scalar α] : LoadError α → String
  | source cause => s!"I/O error: {cause.text}"
  | unexpectedEnd part => s!"unexpected end of input while reading {part.text}"
  | unreadable word kind part =>
    s!"could not parse token '{word}' as {kind.text} while reading {part.text}"
  | variableOutOfRange index size =>
    s!"variable index {index} is out of range for a query with {size} variables"
  | invalidBounds index bounds =>
    let lower := Scalar.text bounds.lower
    let upper := Scalar.text bounds.upper
    s!"invalid bounds for variable {index}: [{lower}, {upper}]"
  | fault f => f.message?.getD ""

/-- Reading words from a source. -/
abbrev Reader (α β : Type) := StateT Source (Except (LoadError α)) β

variable {α : Type} [Scalar α]

def liftFault {β : Type} (result : Except Fault β) : Reader α β :=
  match result with
  | .ok value => pure value
  | .error f => throw (.fault f)

def word (part : Section) : Reader α (List Char) := do
  match (← get).next with
  | .error () => throw (.source .undecodable)
  | .ok (none, _) => throw (.unexpectedEnd part)
  | .ok (some chars, rest) =>
    set rest
    return chars

def index (part : Section) : Reader α Nat := do
  let chars ← word part
  match readIndex? chars with
  | some n => return n
  | none => throw (.unreadable (String.ofList chars) .index part)

def number (part : Section) : Reader α α := do
  let chars ← word part
  match Numeral.ofChars? chars with
  | some numeral => return numeral.toScalar
  | none => throw (.unreadable (String.ofList chars) .number part)

/-- A variable of a query with `size` variables. -/
def knownVariable (size : Nat) (part : Section) : Reader α Variable := do
  let x ← index part
  if x < size then return x else throw (.variableOutOfRange x size)

/-- Does `step` for the positions from `start` on, `count` times. -/
def forEach {β : Type} (step : Nat → β → Reader α β) : (count start : Nat) → β → Reader α β
  | 0, _, state => return state
  | count + 1, start, state => do forEach step count (start + 1) (← step start state)

def readBounds (validate : Bool) (x : Variable) (q : Query α) : Reader α (Query α) := do
  let lower ← number .bounds
  let upper ← number .bounds
  let disordered := Scalar.isUndefined lower || Scalar.isUndefined upper || decide (upper < lower)
  if validate && disordered then throw (.invalidBounds x ⟨lower, upper⟩)
  liftFault (q.withBounds x ⟨lower, upper⟩)

def readEquation (size : Nat) : Reader α (Equation α) := do
  let count ← index .equations
  let scalar ← number .equations
  forEach (fun _ e => do
    let coefficient ← number .equations
    return e.add coefficient (← knownVariable size .equations)) count 0 (Equation.constant scalar)

/-- The greatest number of variables whose bounds fit into the address space. -/
def maxVariables : Nat := 0xfffffffffffffff

def readQuery (validate : Bool) : Reader α (Query α) := do
  let size ← index .header
  let equations ← index .header
  let relus ← index .header
  let inputs ← index .header
  let outputs ← index .header
  if maxVariables < size then throw (.fault .overflow)
  let q ← forEach (fun _ q => do
    liftFault (q.withInput (← knownVariable size .inputs))) inputs 0 (Query.unconstrained size)
  let q ← forEach (fun _ q => do
    liftFault (q.withOutput (← knownVariable size .outputs))) outputs 0 q
  let q ← forEach (readBounds validate) size 0 q
  let q ← forEach (fun _ q => do
    liftFault (q.withEquation (← readEquation size))) equations 0 q
  forEach (fun _ q => do
    let b ← knownVariable size .relus
    let f ← knownVariable size .relus
    liftFault (q.withRelu b f)) relus 0 q

/-- Reads a query; words after its last one are ignored. -/
def load (source : Source) (validate : Bool) : Except (LoadError α) (Query α) :=
  (readQuery validate).run' source

end ReluSolver.Reading
