import ReluSolver.Bounds.Trail
import ReluSolver.Number.Tolerance

/-!
The bound store: the current bounds of all variables, which only ever get tighter until a checkpoint
is closed.

A tightening that is strictly tighter than the old bound is applied and logged, even when it leaves
the variable without a value; it is then reported as infeasible. A fault leaves everything that was
done before it in place.
-/

namespace ReluSolver

/-- What became of a tightening, or of several together. -/
inductive Outcome where
  | accepted
  | rejected
  | infeasible
deriving DecidableEq, Repr

namespace Outcome

def text : Outcome → String
  | accepted => "Accepted"
  | rejected => "Rejected"
  | infeasible => "Infeasible"

def isAccepted (o : Outcome) : Bool := o == accepted

def isInfeasible (o : Outcome) : Bool := o == infeasible

/-- Infeasible if one is, else accepted if one is. -/
def merge : Outcome → Outcome → Outcome
  | infeasible, _ | _, infeasible => infeasible
  | accepted, _ | _, accepted => accepted
  | rejected, rejected => rejected

end Outcome

/-- Why a question about bounds has no answer. -/
inductive BoundError where
  | outOfRange (var : Variable) (size : Nat)
  | snapshotMismatch (snapshot store : Nat)
deriving DecidableEq, Repr

def BoundError.message : BoundError → String
  | outOfRange var size =>
    s!"variable {var.text} is out of range for a store with {size} variables"
  | snapshotMismatch snapshot store =>
    s!"snapshot covers {snapshot} variables but the store holds {store}"

/-- One variable: its bounds, and whether each was tightened since the flags were cleared. -/
structure Cell (α : Type) where
  bounds : Interval α
  lowerTightened : Bool
  upperTightened : Bool

namespace Cell

variable {α : Type}

def unbounded [Scalar α] : Cell α := ⟨Interval.all, false, false⟩

def value (c : Cell α) : Side → α
  | .lower => c.bounds.lower
  | .upper => c.bounds.upper

def flag (c : Cell α) : Side → Bool
  | .lower => c.lowerTightened
  | .upper => c.upperTightened

def put (c : Cell α) (side : Side) (value : α) (flag : Bool) : Cell α :=
  match side with
  | .lower => { c with bounds := { c.bounds with lower := value }, lowerTightened := flag }
  | .upper => { c with bounds := { c.bounds with upper := value }, upperTightened := flag }

def clearFlags (c : Cell α) : Cell α := ⟨c.bounds, false, false⟩

variable [Scalar α]

/-- Whether a value is strictly tighter than the bound on that side. -/
def improves (c : Cell α) (side : Side) (value : α) : Bool :=
  match side with
  | .lower => decide (c.bounds.lower < value)
  | .upper => decide (value < c.bounds.upper)

/-- Whether the bounds do not cross, up to the tolerance. -/
def isConsistent (c : Cell α) (t : Tolerance α) : Bool := t.ge c.bounds.upper c.bounds.lower

/-- Whether the bounds are equal, up to the tolerance. -/
def isFixed (c : Cell α) (t : Tolerance α) : Bool := t.areEqual c.bounds.lower c.bounds.upper

end Cell

/-- Who is told about accepted tightenings. -/
inductive Observer (α : Type) where
  | absent
  /-- A listener, and what it has been told, latest first. -/
  | listening (heard : List (Tightening α))
  /-- A listener that went away without being taken off. -/
  | gone

namespace Observer

variable {α : Type}

def isPresent : Observer α → Bool
  | absent => false
  | _ => true

def notify (o : Observer α) (t : Tightening α) : Observer α :=
  match o with
  | listening heard => listening (t :: heard)
  | other => other

/-- A listener goes away without being taken off. -/
def leave : Observer α → Observer α
  | listening _ => gone
  | other => other

/-- What a listener has been told, in order. -/
def heard : Observer α → List (Tightening α)
  | listening heard => heard.reverse
  | _ => []

/-- Forgets what a listener has been told. -/
def forget : Observer α → Observer α
  | listening _ => listening []
  | other => other

end Observer

/-- The bounds of all variables at one moment. -/
structure Snapshot (α : Type) where
  bounds : Array (Interval α)

structure Store (α : Type) where
  cells : Array (Cell α)
  trail : Trail α
  observer : Observer α
  tolerance : Tolerance α

namespace Store

variable {α : Type}

/-- A store without variables. -/
def new (tolerance : Tolerance α) : Store α := ⟨#[], .empty, .absent, tolerance⟩

def size (s : Store α) : Nat := s.cells.size

def depth (s : Store α) : Nat := s.trail.depth

def snapshot (s : Store α) : Snapshot α := ⟨s.cells.map (·.bounds)⟩

/-- The variables whose cell passes a test, in ascending order. -/
def variablesWith (s : Store α) (test : Cell α → Bool) : List Variable :=
  (List.range s.size).filter fun x => s.cells[x]?.any test

/-- The variables with a flag: those whose lower bound was tightened, then those of which only the
upper bound was. -/
def tightenedVariables (s : Store α) : List Variable :=
  s.variablesWith (·.lowerTightened) ++
    s.variablesWith fun c => c.upperTightened && !c.lowerTightened

def clearFlags (s : Store α) : Store α := { s with cells := s.cells.map Cell.clearFlags }

def pushCheckpoint (s : Store α) : Store α := { s with trail := s.trail.push }

/-- Puts one entry of the trail back. -/
def undo (s : Store α) (e : TrailEntry α) : Store α :=
  { s with cells := s.cells.modify e.var (·.put e.side e.oldValue e.oldFlag) }

/-- Undoes everything since the innermost checkpoint and closes it. -/
def popCheckpoint (s : Store α) : Except Fault (Store α) :=
  match s.trail.pop? with
  | none => .error .noOpenCheckpoint
  | some (entries, outer) => .ok (entries.foldl undo { s with trail := outer })

variable [Scalar α]

/-- Adds an unbounded variable and gives its number. -/
def register (s : Store α) : Variable × Store α :=
  (s.size, { s with cells := s.cells.push Cell.unbounded })

/-- Adds `count` unbounded variables to an empty store. -/
def initialize? (s : Store α) (count : Nat) : Except Fault (Store α) :=
  if s.cells.isEmpty then .ok { s with cells := Array.replicate count Cell.unbounded }
  else .error (.storeNotEmpty s.size)

/-- The cell of a variable, for an operation that refuses unknown ones. -/
def cell (s : Store α) (access : Access) (x : Variable) : Except Fault (Cell α) :=
  match s.cells[x]? with
  | some c => .ok c
  | none => .error (.variableOutOfRange access s.size x)

def lower (s : Store α) (x : Variable) : Except Fault α :=
  return (← s.cell .storeLower x).bounds.lower

def upper (s : Store α) (x : Variable) : Except Fault α :=
  return (← s.cell .storeUpper x).bounds.upper

def interval (s : Store α) (x : Variable) : Except Fault (Interval α) :=
  return ⟨← s.lower x, ← s.upper x⟩

def lower? (s : Store α) (x : Variable) : Except BoundError α :=
  match s.cells[x]? with
  | some c => .ok c.bounds.lower
  | none => .error (.outOfRange x s.size)

def upper? (s : Store α) (x : Variable) : Except BoundError α :=
  match s.cells[x]? with
  | some c => .ok c.bounds.upper
  | none => .error (.outOfRange x s.size)

def isFixed (s : Store α) (x : Variable) : Except Fault Bool :=
  return (← s.cell .storeFixed x).isFixed s.tolerance

def isConsistent (s : Store α) (x : Variable) : Except Fault Bool :=
  return (← s.cell .storeConsistent x).isConsistent s.tolerance

def wasLowerTightened (s : Store α) (x : Variable) : Except Fault Bool :=
  return (← s.cell .storeLowerTightened x).lowerTightened

def wasUpperTightened (s : Store α) (x : Variable) : Except Fault Bool :=
  return (← s.cell .storeUpperTightened x).upperTightened

/-- A step on a store. It may fail with an error and keeps what it did until then. -/
abbrev Action (ε α β : Type) := EStateM ε (Store α) β

private def accessOf : Side → Access
  | .lower => .storeTightenLower
  | .upper => .storeTightenUpper

/-- Applies one tightening to a store that has its variable. -/
def place (s : Store α) (t : Tightening α) (known : t.var < s.cells.size) : Outcome × Store α :=
  let old := s.cells[t.var]
  if old.improves t.side t.value then
    let new := old.put t.side t.value true
    let entry := ⟨t.var, t.side, old.value t.side, old.flag t.side⟩
    let changed := { s with cells := s.cells.set t.var new, trail := s.trail.record entry }
    if new.isConsistent s.tolerance then
      (.accepted, { changed with observer := s.observer.notify t })
    else
      (.infeasible, changed)
  else
    (.rejected, s)

def tighten (t : Tightening α) : Action Fault α Outcome := fun s =>
  if known : t.var < s.cells.size then
    let (outcome, changed) := s.place t known
    .ok outcome changed
  else
    .error (.variableOutOfRange (accessOf t.side) s.size t.var) s

/-- Applies tightenings in order, up to the first infeasible one. -/
def tightenAll : List (Tightening α) → Action Fault α Outcome
  | [] => return .rejected
  | t :: rest => do
    let outcome ← tighten t
    if outcome.isInfeasible then return .infeasible
    return outcome.merge (← tightenAll rest)

/-- Tightens both bounds of a variable, the lower one first. -/
def tightenBounds (x : Variable) (bounds : Interval α) : Action Fault α Outcome :=
  tightenAll [.lower x bounds.lower, .upper x bounds.upper]

/-- Tightens the variables from `x` on to a list of bounds, up to the first infeasible one. -/
def tightenFrom (x : Variable) : List (Interval α) → Action Fault α Outcome
  | [] => return .rejected
  | bounds :: rest => do
    let outcome ← tightenBounds x bounds
    if outcome.isInfeasible then return .infeasible
    return outcome.merge (← tightenFrom (x + 1) rest)

/-- Tightens every variable to the bounds that it had in a snapshot of a store of the same size. -/
def applySnapshot (snapshot : Snapshot α) : Action Fault α (Except BoundError Outcome) := do
  let s ← get
  if snapshot.bounds.size != s.size then
    return .error (.snapshotMismatch snapshot.bounds.size s.size)
  return .ok (← tightenFrom 0 snapshot.bounds.toList)

/-- The counts on one line. -/
def summary (s : Store α) : String :=
  "BoundStore \x7b " ++
    s!"num_variables: {s.size}, depth: {s.depth}, trail: {s.trail.entryCount}, " ++
    s!"has_observer: {s.observer.isPresent}" ++
    " \x7d"

private def cellLine (x : Variable) (c : Cell α) : String :=
  s!"  {x.text} in [{Scalar.text c.bounds.lower}, {Scalar.text c.bounds.upper}]\n"

/-- The counts, then one line per variable. -/
def text (s : Store α) : String :=
  s!"BoundStore(variables: {s.size}, depth: {s.depth})\n" ++
    String.join (s.cells.toList.mapIdx cellLine)

end Store

end ReluSolver
