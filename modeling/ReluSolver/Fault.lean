/-!
Broken calls. A fault is raised where a caller breaks the contract of an operation; no input of the
program itself is a fault. Most faults have a wording that names the operation, some have none.
-/

namespace ReluSolver

/-- An operation that refuses a variable its query or store does not have. -/
inductive Access where
  | queryLower
  | queryUpper
  | buildBounds
  | buildLower
  | buildUpper
  | buildEquation
  | buildRelu
  | buildInput
  | buildOutput
  | storeLower
  | storeUpper
  | storeFixed
  | storeConsistent
  | storeTightenLower
  | storeTightenUpper
  | storeLowerTightened
  | storeUpperTightened
deriving DecidableEq, Repr

def Access.text : Access → String
  | queryLower => "InputQuery::lower_bound"
  | queryUpper => "InputQuery::upper_bound"
  | buildBounds => "QueryBuilder::set_bounds"
  | buildLower => "QueryBuilder::set_lower_bound"
  | buildUpper => "QueryBuilder::set_upper_bound"
  | buildEquation => "QueryBuilder::add_equation"
  | buildRelu => "QueryBuilder::add_relu"
  | buildInput => "QueryBuilder::mark_input"
  | buildOutput => "QueryBuilder::mark_output"
  | storeLower => "BoundStore::lower_bound"
  | storeUpper => "BoundStore::upper_bound"
  | storeFixed => "BoundStore::is_fixed"
  | storeConsistent => "BoundStore::is_consistent"
  | storeTightenLower => "BoundStore::tighten_lower_bound"
  | storeTightenUpper => "BoundStore::tighten_upper_bound"
  | storeLowerTightened => "BoundStore::was_lower_tightened"
  | storeUpperTightened => "BoundStore::was_upper_tightened"

inductive Fault where
  /-- A tolerance must be finite and not negative. -/
  | invalidEpsilon
  /-- `size` variables are known, and `index` is not one of them. -/
  | variableOutOfRange (access : Access) (size index : Nat)
  /-- The input of a ReLU cannot be its own output. -/
  | reluOfItself
  /-- A stored solution has one value per variable. -/
  | solutionLength
  /-- A store is sized only while it is empty. -/
  | storeNotEmpty (size : Nat)
  | noOpenCheckpoint
  | solveLength
  | transposedSolveLength
  /-- Only a fixed phase can be imposed by a split. -/
  | unfixedPhase
  | countNotPowerOfTwo (count : Nat)
  | tooManyInitialDivides (divides limit : Nat)
  | tooManyOnlineDivides (divides limit : Nat)
  /-- A timeout factor is finite and at least one; `shown` is the text of the refused one. -/
  | invalidTimeoutFactor (shown : String)
  /-- A run stopped without a verdict and without a reason to stop. -/
  | endedUnresolved (unresolved : Int)
  /-- Only a satisfied run has a solution; `verdict` is the text of the given one. -/
  | solutionWithoutSat (verdict : String)
  /-- An index past the end of a list of values, rows or constraints. -/
  | indexOutOfRange
  /-- A name that stands for nothing. -/
  | missingEntry
  /-- A machine integer past its greatest value. -/
  | overflow
  /-- An interval without a number to draw. -/
  | emptyRange
  /-- An interval too wide to draw a number from. -/
  | rangeOverflow
  /-- A loop went past the number of rounds it can need. -/
  | unfinished
  /-- An engine gave up in the middle of a search. -/
  | engineCrash
deriving DecidableEq, Repr

namespace Fault

/-- The wording of a fault, if it has one. -/
def message? : Fault → Option String
  | invalidEpsilon => some "called `Tolerance::new` with an invalid epsilon"
  | variableOutOfRange access size index =>
    let operation := access.text
    some (s!"called `{operation}` with variable index out of bounds: " ++
      s!"the len is {size} but the index is {index}")
  | reluOfItself =>
    some "called `ReluConstraint::new` with the same variable as input and output"
  | solutionLength => some "called `InputQuery::set_solution` with a solution of the wrong length"
  | storeNotEmpty size =>
    some s!"called `BoundStore::initialize` on a store that already holds {size} variables"
  | noOpenCheckpoint => some "called `BoundStore::pop_checkpoint` without an open checkpoint"
  | solveLength => some "called `LuFactors::solve_in_place` with a vector of the wrong length"
  | transposedSolveLength =>
    some "called `LuFactors::solve_transposed_in_place` with a vector of the wrong length"
  | unfixedPhase => some "called `phase_split` with an unfixed phase"
  | countNotPowerOfTwo count =>
    some s!"called `QueryDivider::create_sub_queries` with count {count} that is not a power of two"
  | tooManyInitialDivides divides limit =>
    some s!"called `DncConfigBuilder::with_initial_divides` with {divides} > {limit}"
  | tooManyOnlineDivides divides limit =>
    some s!"called `DncConfigBuilder::with_online_divides` with {divides} > {limit}"
  | invalidTimeoutFactor shown =>
    some s!"called `DncConfigBuilder::with_timeout_factor` with invalid factor {shown}"
  | endedUnresolved unresolved =>
    some s!"divide-and-conquer run ended with {unresolved} unresolved subqueries and no reason"
  | solutionWithoutSat verdict =>
    some s!"called `DncOutcome::new` with a solution for exit code {verdict}"
  | indexOutOfRange | missingEntry | overflow | emptyRange | rangeOverflow | unfinished
  | engineCrash => none

end Fault

/-- The entry of a list of values at `index`. -/
def fetch {β : Type} (values : Array β) (index : Nat) : Except Fault β :=
  match values[index]? with
  | some value => .ok value
  | none => .error .indexOutOfRange

/-- The list of values with another entry at `index`. -/
def replace {β : Type} (values : Array β) (index : Nat) (value : β) : Except Fault (Array β) :=
  if index < values.size then .ok (values.setIfInBounds index value) else .error .indexOutOfRange

/-- The greatest number an index, a count or a depth can take. -/
def maxIndex : Nat := 0xffffffffffffffff

/-- The index after `index`. -/
def nextIndex (index : Nat) : Except Fault Nat :=
  if index < maxIndex then .ok (index + 1) else .error .overflow

end ReluSolver
