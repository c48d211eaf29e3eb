import ReluSolver.Number.Tolerance

/-!
Linear equations `Σ cᵢ·xᵢ = scalar` over numbered variables.

An equation is built by adding one term after another; terms of one variable are folded together,
and a term whose coefficient becomes zero disappears.
-/

namespace ReluSolver

/-- The number of a variable. -/
abbrev Variable := Nat

def Variable.text (x : Variable) : String := s!"x({x})"

/-- One value per variable. -/
abbrev Assignment (α : Type) := Array α

structure Addend (α : Type) where
  coefficient : α
  var : Variable

structure Equation (α : Type) where
  addends : List (Addend α)
  scalar : α

namespace Equation

variable {α : Type} [Scalar α]

/-- The equation `0 = scalar`. -/
def constant (scalar : α) : Equation α := ⟨[], scalar⟩

/-- Folds `coefficient` into the first addend of `var`, or appends a new one. -/
def addTo (coefficient : α) (var : Variable) : List (Addend α) → List (Addend α)
  | [] => if coefficient == 0 then [] else [⟨coefficient, var⟩]
  | addend :: rest =>
    if addend.var = var then
      let folded := addend.coefficient + coefficient
      if folded == 0 then rest else ⟨folded, var⟩ :: rest
    else
      addend :: addTo coefficient var rest

def add (e : Equation α) (coefficient : α) (var : Variable) : Equation α :=
  { e with addends := addTo coefficient var e.addends }

/-- Adds the terms in order to `0 = scalar`. -/
def ofTerms (terms : List (α × Variable)) (scalar : α) : Equation α :=
  terms.foldl (fun e term => e.add term.1 term.2) (constant scalar)

def isEmpty (e : Equation α) : Bool := e.addends.isEmpty

def contains (e : Equation α) (var : Variable) : Bool :=
  e.addends.any (·.var == var)

/-- The coefficient of `var`, zero if the equation does not mention it. -/
def coefficientOf (e : Equation α) (var : Variable) : α :=
  match e.addends.find? (·.var == var) with
  | some addend => addend.coefficient
  | none => 0

/-- The left side under `values`. -/
def evaluate (e : Equation α) (values : Assignment α) : Except Fault α := do
  let products ← e.addends.mapM fun addend =>
    return addend.coefficient * (← fetch values addend.var)
  return Scalar.sum products

def isSatisfied (e : Equation α) (values : Assignment α) (t : Tolerance α) : Except Fault Bool :=
  return t.areEqual (← e.evaluate values) e.scalar

/-- The addends without the first one of `var`, and the coefficient that it had. -/
def takeOut (var : Variable) : List (Addend α) → Option (α × List (Addend α))
  | [] => none
  | addend :: rest =>
    if addend.var = var then
      some (addend.coefficient, rest)
    else
      (takeOut var rest).map fun (coefficient, others) => (coefficient, addend :: others)

/-- Replaces `var` by a value, moving its term to the right side. -/
def fix (e : Equation α) (var : Variable) (value : α) : Equation α :=
  match takeOut var e.addends with
  | some (coefficient, rest) => ⟨rest, e.scalar - coefficient * value⟩
  | none => e

/-- Replaces `source` by `target`. -/
def merge (e : Equation α) (source target : Variable) : Equation α :=
  match takeOut source e.addends with
  | some (coefficient, rest) => { e with addends := addTo coefficient target rest }
  | none => e

/-- Renames the addends one after another, up to the first variable that has no new name. -/
def renameAddends (rename : Variable → Except Fault Variable) :
    List (Addend α) → List (Addend α) × Except Fault Unit
  | [] => ([], .ok ())
  | addend :: rest =>
    match rename addend.var with
    | .error fault => (addend :: rest, .error fault)
    | .ok var =>
      let (renamed, outcome) := renameAddends rename rest
      ({ addend with var := var } :: renamed, outcome)

/-- Renames every variable in place; terms are not folded. A missing name leaves the rest as is. -/
def rename (e : Equation α) (rename : Variable → Except Fault Variable) :
    Equation α × Except Fault Unit :=
  let (addends, outcome) := renameAddends rename e.addends
  ({ e with addends := addends }, outcome)

def Addend.text (addend : Addend α) : String :=
  Scalar.text addend.coefficient ++ addend.var.text

/-- How the equation at a position is named. -/
def indexText (index : Nat) : String := s!"EquationIndex({index})"

def text (e : Equation α) : String :=
  let left := if e.isEmpty then "0" else " + ".intercalate (e.addends.map Addend.text)
  left ++ " = " ++ Scalar.text e.scalar

end Equation

end ReluSolver
