import ReluSolver.Query.Equation

/-!
What became of the variables of a query when it was simplified, and the way back from a solution of
the simplified query.

A merged variable has the value of the one that it was merged into, which may itself be merged
again; the chain ends at a fixed or a kept variable. The kept ones are numbered in their old order.
-/

namespace ReluSolver

/-- What became of one variable. -/
inductive Fate (α : Type) where
  | kept
  | fixed (value : α)
  | merged (target : Variable)

namespace Fate

variable {α : Type}

def isKept : Fate α → Bool
  | kept => true
  | _ => false

def isFixed : Fate α → Bool
  | fixed _ => true
  | _ => false

def isMerged : Fate α → Bool
  | merged _ => true
  | _ => false

end Fate

/-- The fates of the variables of a query. -/
structure VariableMap (α : Type) where
  fates : Array (Fate α)

namespace VariableMap

variable {α : Type} (m : VariableMap α)

/-- The map of a query that is left as it is. -/
def identity (size : Nat) : VariableMap α := ⟨Array.replicate size .kept⟩

def size : Nat := m.fates.size

def isKept (x : Variable) : Bool := m.fates[x]?.any Fate.isKept

def isFixed (x : Variable) : Bool := m.fates[x]?.any Fate.isFixed

def isMerged (x : Variable) : Bool := m.fates[x]?.any Fate.isMerged

/-- The variable that `x` was merged into, one step along its chain. -/
def target? (x : Variable) : Option Variable :=
  match m.fates[x]? with
  | some (.merged target) => some target
  | _ => none

def fixedValue? (x : Variable) : Option α :=
  match m.fates[x]? with
  | some (.fixed value) => some value
  | _ => none

/-- The number of a kept variable in the simplified query. -/
def newIndex? (x : Variable) : Option Variable :=
  if m.isKept x then some ((m.fates.toList.take x).countP Fate.isKept) else none

/-- The kept variables, in order. -/
def survivors : List Variable := (List.range m.size).filter m.isKept

/-- Follows a chain for a number of steps. -/
def follow : (steps : Nat) → Variable → Variable
  | 0, x => x
  | steps + 1, x =>
    match m.target? x with
    | some target => follow steps target
    | none => x

/-- The end of the chain of `x`. A chain never comes back, so it has fewer steps than variables. -/
def representative (x : Variable) : Variable := m.follow m.size x

/-- The value of a variable of the query under a solution of the simplified one. -/
def valueUnder? (x : Variable) (solution : Assignment α) : Option α :=
  let r := m.representative x
  match m.fixedValue? r with
  | some value => some value
  | none => do solution[← m.newIndex? r]?

/-- The solution of the query that a solution of the simplified one stands for. One that is too
short stands for none. -/
def mapSolution? (solution : Assignment α) : Option (Assignment α) :=
  ((List.range m.size).mapM (m.valueUnder? · solution)).map List.toArray

def fix (x : Variable) (value : α) : VariableMap α := ⟨m.fates.setIfInBounds x (.fixed value)⟩

def merge (source target : Variable) : VariableMap α :=
  ⟨m.fates.setIfInBounds source (.merged target)⟩

end VariableMap

end ReluSolver
