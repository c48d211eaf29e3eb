import ReluSolver.Query.Relu
import ReluSolver.Query.Split

/-!
A query: bounds of numbered variables, linear equations and ReLUs. It asks for an assignment that
satisfies all of them; its input and output variables say which part of the assignment matters.

A query never mentions a variable that it does not have.
-/

namespace ReluSolver

structure Query (α : Type) where
  size : Nat
  bounds : Vector (Interval α) size
  equations : List (Equation α)
  relus : List Relu
  inputs : List Variable
  outputs : List Variable
  solution : Option (Vector α size)
  equations_known : ∀ e ∈ equations, ∀ a ∈ e.addends, a.var < size
  relus_known : ∀ r ∈ relus, r.b < size ∧ r.f < size
  inputs_known : ∀ x ∈ inputs, x < size
  outputs_known : ∀ x ∈ outputs, x < size

namespace Query

variable {α : Type} [Scalar α]

/-- The query over `size` unbounded variables that asks for nothing. -/
def unconstrained (size : Nat) : Query α where
  size := size
  bounds := Vector.replicate size Interval.all
  equations := []
  relus := []
  inputs := []
  outputs := []
  solution := none
  equations_known := by simp
  relus_known := by simp
  inputs_known := by simp
  outputs_known := by simp

/-- The numbers of the variables, in ascending order. -/
def allVariables (q : Query α) : List Variable := List.range q.size

def lower (q : Query α) (x : Variable) : Except Fault α :=
  match q.bounds[x]? with
  | some bounds => .ok bounds.lower
  | none => .error (.variableOutOfRange .queryLower q.size x)

def upper (q : Query α) (x : Variable) : Except Fault α :=
  match q.bounds[x]? with
  | some bounds => .ok bounds.upper
  | none => .error (.variableOutOfRange .queryUpper q.size x)

def interval (q : Query α) (x : Variable) : Except Fault (Interval α) :=
  return ⟨← q.lower x, ← q.upper x⟩

/-- Changes the bounds of a variable of a finished query. -/
def modifyBounds (q : Query α) (x : Variable) (change : Interval α → Interval α) :
    Except Fault (Query α) :=
  if h : x < q.size then
    .ok { q with bounds := q.bounds.set x (change q.bounds[x]) }
  else
    .error .indexOutOfRange

def setLower (q : Query α) (x : Variable) (value : α) : Except Fault (Query α) :=
  q.modifyBounds x fun bounds => { bounds with lower := value }

def setUpper (q : Query α) (x : Variable) (value : α) : Except Fault (Query α) :=
  q.modifyBounds x fun bounds => { bounds with upper := value }

def equation (q : Query α) (index : Nat) : Except Fault (Equation α) :=
  match q.equations[index]? with
  | some e => .ok e
  | none => .error .indexOutOfRange

def relu (q : Query α) (index : Nat) : Except Fault Relu :=
  match q.relus[index]? with
  | some r => .ok r
  | none => .error .indexOutOfRange

def isInput (q : Query α) (x : Variable) : Bool := q.inputs.contains x

def isOutput (q : Query α) (x : Variable) : Bool := q.outputs.contains x

def inRelu (q : Query α) (x : Variable) : Bool := q.relus.any (·.participates x)

/-- Stores a solution beside the constraints. -/
def setSolution (q : Query α) (values : Assignment α) : Except Fault (Query α) :=
  if h : values.size = q.size then
    .ok { q with solution := some ⟨values, h⟩ }
  else
    .error .solutionLength

/-- The value of a variable in the stored solution, if one is stored. -/
def solutionValue (q : Query α) (x : Variable) : Except Fault (Option α) :=
  match q.solution with
  | some values => some <$> fetch values.toArray x
  | none => .ok none

/-- Whether `check` accepts every entry; the first refusal decides, later entries are not checked.
-/
def allOf {β : Type} (entries : List β) (check : β → Except Fault Bool) : Except Fault Bool :=
  match entries with
  | [] => .ok true
  | entry :: rest => do
    if ← check entry then allOf rest check else return false

/-- Whether an assignment of the right length satisfies all bounds, equations and ReLUs. -/
def isSatisfiedBy (q : Query α) (values : Assignment α) (t : Tolerance α) : Except Fault Bool := do
  if values.size != q.size then return false
  let inBounds := (List.zip values.toList q.bounds.toList).all fun (value, bounds) =>
    t.within value bounds.lower bounds.upper
  if !inBounds then return false
  if !(← allOf q.equations (·.isSatisfied values t)) then return false
  allOf q.relus (·.isSatisfied values t)

private def boundsLine (x : Variable) (bounds : Interval α) : String :=
  s!"  {x.text} in [{Scalar.text bounds.lower}, {Scalar.text bounds.upper}]\n"

/-- The counts, then one line per variable, equation and ReLU. -/
def text (q : Query α) : String :=
  let counts := s!"equations: {q.equations.length}, relus: {q.relus.length}"
  let head := s!"InputQuery(variables: {q.size}, {counts})\n"
  let bounds := q.bounds.toList.mapIdx boundsLine
  let equations := q.equations.map fun e => "  " ++ e.text ++ "\n"
  let relus := q.relus.map fun r => "  " ++ r.text ++ "\n"
  head ++ String.join (bounds ++ equations ++ relus)

private def variableList (xs : List Variable) : String :=
  "[" ++ ", ".intercalate (xs.map Variable.text) ++ "]"

/-- The counts and the roles of variables on one line. -/
def summary (q : Query α) : String :=
  String.join [
    "InputQuery \x7b ",
    s!"num_variables: {q.size}, ",
    s!"num_equations: {q.equations.length}, ",
    s!"num_relus: {q.relus.length}, ",
    s!"input_variables: {variableList q.inputs}, ",
    s!"output_variables: {variableList q.outputs}",
    " \x7d"]

end Query

end ReluSolver
