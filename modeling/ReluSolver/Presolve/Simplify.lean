import ReluSolver.Deduction.Propagation
import ReluSolver.Presolve.VariableMap
import ReluSolver.Query.Builder

/-!
Simplifying a query before it is searched.

Rounds of propagation alternate with three reductions: a variable whose bounds are equal is replaced
by its value, two variables that an equation declares equal become one, and an equation without
variables is dropped, or shows that there is no solution. Inputs, outputs and variables of ReLUs are
never replaced. The simplified query has the remaining variables, numbered anew.
-/

namespace ReluSolver.Presolve

variable {α : Type} [Scalar α]

/-- A query in the course of its simplification. -/
structure Draft (α : Type) where
  store : Store α
  equations : List (Equation α)
  map : VariableMap α

/-- Whether a variable has to stay. -/
def isProtected (q : Query α) (x : Variable) : Bool := q.isInput x || q.isOutput x || q.inRelu x

/-- The value to fix a variable at, if its bounds leave only one. -/
def fixedAt? (q : Query α) (t : Tolerance α) (d : Draft α) (x : Variable) : Option α :=
  if isProtected q x || !d.map.isKept x then none
  else
    match d.store.cells[x]? with
    | some c => if Scalar.isFinite c.bounds.lower && c.isFixed t then some c.bounds.lower else none
    | none => none

def fixVariable (q : Query α) (t : Tolerance α) (d : Draft α) (x : Variable) : Draft α :=
  match fixedAt? q t d x with
  | some value =>
    { d with equations := d.equations.map (·.fix x value), map := d.map.fix x value }
  | none => d

/-- Fixes every variable that has one value left. -/
def fixVariables (q : Query α) (t : Tolerance α) (d : Draft α) : Draft α :=
  q.allVariables.foldl (fixVariable q t) d

/-- The second and the first variable of an equation that says that they are equal. -/
def aliasPair? (q : Query α) (t : Tolerance α) (e : Equation α) : Option (Variable × Variable) :=
  match e.addends with
  | [first, second] =>
    let isAlias := t.isZero e.scalar && t.areEqual first.coefficient (-second.coefficient)
    if isAlias && !isProtected q first.var && !isProtected q second.var then
      some (second.var, first.var)
    else none
  | _ => none

/-- Merges the first pair of equal variables. -/
def mergePair (q : Query α) (t : Tolerance α) (d : Draft α) : Except Setback (Draft α) :=
  match d.equations.findSome? (aliasPair? q t) with
  | none => .ok d
  | some (source, target) => do
    let bounds ← (d.store.interval source).mapError Setback.fault
    match Store.tightenBounds target bounds d.store with
    | .error cause _ => throw (.fault cause)
    | .ok .infeasible _ => throw .conflict
    | .ok _ s =>
      return ⟨s, d.equations.map (·.merge source target), d.map.merge source target⟩

/-- Drops the equations without variables. -/
def dropEmpty (t : Tolerance α) (d : Draft α) : Except Setback (Draft α) :=
  if d.equations.any fun e => e.isEmpty && !t.isZero e.scalar then .error .conflict
  else .ok { d with equations := d.equations.filter (!·.isEmpty) }

/-- How much is left to reduce: every reduction replaces a variable or drops an equation. -/
def remaining (d : Draft α) : Nat := d.map.survivors.length + d.equations.length

/-- Simplifies until a round reduces nothing. -/
def rounds (q : Query α) (effort : Effort α) : (fuel : Nat) → Draft α → Except Setback (Draft α)
  | 0, _ => .error (.fault .unfinished)
  | fuel + 1, d => do
    let s ← match effort.propagate d.equations [] q.relus d.store with
      | .ok _ s => .ok s
      | .error cause _ => .error cause
    let fixed := fixVariables q effort.tolerance { d with store := s }
    let merged ← mergePair q effort.tolerance fixed
    let next ← dropEmpty effort.tolerance merged
    if remaining next < remaining d then rounds q effort fuel next else return next

/-- The number of a variable in the simplified query; a replaced variable has none. -/
def newIndex (m : VariableMap α) (x : Variable) : Except Fault Variable :=
  match m.newIndex? x with
  | some index => .ok index
  | none => .error .missingEntry

/-- The query over the kept variables. -/
def rebuild (q : Query α) (d : Draft α) : Except Fault (Query α) := do
  let name := newIndex d.map
  let survivors := d.map.survivors
  let built ← survivors.foldlM (fun (built : Query α) x => do
    built.withBounds (← name x) (← d.store.interval x)) (Query.unconstrained survivors.length)
  let built ← d.equations.foldlM (fun built e => do
    let (renamed, outcome) := e.rename name
    outcome
    built.withEquation renamed) built
  let built ← q.relus.foldlM (fun built r => do built.withRelu (← name r.b) (← name r.f)) built
  let built ← q.inputs.foldlM (fun built x => do built.withInput (← name x)) built
  q.outputs.foldlM (fun built x => do built.withOutput (← name x)) built

/-- Simplifies a query. A conflict shows that it has no solution. -/
def simplify (q : Query α) (effort : Effort α) : Except Setback (Query α × VariableMap α) := do
  let (outcome, s) ← (q.storeWithin .empty effort.tolerance).mapError Setback.fault
  if outcome.isInfeasible then throw .conflict
  let start : Draft α := ⟨s, q.equations, VariableMap.identity q.size⟩
  let d ← rounds q effort (remaining start + 1) start
  let simplified ← (rebuild q d).mapError Setback.fault
  return (simplified, d.map)

end ReluSolver.Presolve
