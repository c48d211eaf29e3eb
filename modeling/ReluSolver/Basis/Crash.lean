import ReluSolver.Choice
import ReluSolver.Basis.Square
import ReluSolver.Query.Basic

/-!
The crash basis: for a largest set of independent equations of a query, one variable each that the
equation can be solved for.

The equations are reduced in order, each by the ones kept before it. What is left of an equation is
either nothing, and then the equation is dropped or contradicts those before it, or a row of which
one column becomes its basic variable.
-/

namespace ReluSolver

/-- A kept equation, with its place in the query and its basic variable. -/
structure BasisRow (α : Type) where
  index : Nat
  equation : Equation α
  basic : Variable

structure CrashBasis (α : Type) where
  rows : List (BasisRow α)
  nonBasic : List Variable

/-- The equation at `index` contradicts those before it. -/
structure Inconsistent where
  index : Nat
deriving DecidableEq, Repr

def Inconsistent.message (e : Inconsistent) : String :=
  s!"equation {Equation.indexText e.index} contradicts the preceding equations"

namespace CrashBasis

/-- An equation reduced by the ones before it, scaled to have a one in its pivot column. -/
structure Reduced (α : Type) (n : Nat) where
  column : Fin n
  entries : Vector α n
  scalar : α

variable {α : Type} [Scalar α] {n : Nat}

/-- The coefficients of an equation, one per variable. -/
def denseRow (n : Nat) (e : Equation α) : Vector α n :=
  e.addends.foldl (fun (row : Vector α n) a =>
    if h : a.var < n then row.set a.var (row[a.var] + a.coefficient) else row)
    (Vector.replicate n 0)

/-- Makes the entry in the pivot column zero. -/
def eliminate (row : Vector α n × α) (pivot : Reduced α n) : Vector α n × α :=
  let factor := row.1[pivot.column]
  if factor == 0 then row
  else
    let entries := row.1.zipWith (fun r p => r - factor * p) pivot.entries
    (entries.set pivot.column 0, row.2 - factor * pivot.scalar)

/-- The largest magnitude in a row. -/
def largestEntry (row : Vector α n) : α :=
  row.toList.foldl (fun largest x => Scalar.max largest (Scalar.abs x)) 0

/-- The number of terms that mention a variable. -/
def occurrences (q : Query α) (x : Variable) : Nat :=
  (q.equations.flatMap (·.addends)).countP (·.var == x)

/-- Orders two columns, the better pivot last: rather no input, rather outside all ReLUs, rather of
one equation only, rather with a large entry, and of equals the earlier one. -/
def comparePivots (q : Query α) (row : Vector α n) (i j : Fin n) : Ordering :=
  let byRole (property : Variable → Bool) := compare (property i) (property j)
  (byRole fun x => !q.isInput x)
    |>.then (byRole fun x => !q.inRelu x)
    |>.then (byRole fun x => occurrences q x == 1)
    |>.then (Scalar.compareTotal (Scalar.abs (row.get i)) (Scalar.abs (row.get j)))
    |>.then (compare j.val i.val)

/-- The part of the largest entry that a pivot has to reach. -/
def pivotShare : α := 0.01

/-- The best pivot column of a row whose largest entry is not zero. -/
def pivotColumn? (q : Query α) (t : Tolerance α) (row : Vector α n) : Option (Fin n) :=
  let largest := largestEntry row
  let least := largest * pivotShare
  let isPivot (j : Fin n) := decide (least ≤ Scalar.abs (row.get j)) && !t.isZero (row.get j)
  if t.isZero largest then none
  else
    firstBest? (fun j best => comparePivots q row best j == .lt) ((List.finRange n).filter isPivot)

/-- Divides a row by its pivot. -/
def normalize (row : Vector α n) (scalar : α) (column : Fin n) : Reduced α n :=
  let pivot := row.get column
  ⟨column, (row.map (· / pivot)).set column 1 column.isLt, scalar / pivot⟩

/-- Reduces the equations from position `index` on, after the ones in `kept`. -/
def select (q : Query α) (t : Tolerance α) (kept : List (Reduced α q.size × BasisRow α))
    (index : Nat) : List (Equation α) → Except Inconsistent (List (BasisRow α))
  | [] => .ok (kept.map (·.2))
  | e :: rest =>
    let (row, scalar) := (kept.map (·.1)).foldl eliminate (denseRow q.size e, e.scalar)
    match pivotColumn? q t row with
    | some column =>
      let pivot := (normalize row scalar column, ⟨index, e, column⟩)
      select q t (kept ++ [pivot]) (index + 1) rest
    | none =>
      if t.isZero scalar then select q t kept (index + 1) rest else .error ⟨index⟩

def compute (q : Query α) (t : Tolerance α) : Except Inconsistent (CrashBasis α) := do
  let rows ← select q t [] 0 q.equations
  let isBasic (x : Variable) := rows.any (·.basic == x)
  return ⟨rows, q.allVariables.filter fun x => !isBasic x⟩

variable (b : CrashBasis α)

abbrev dimension : Nat := b.rows.length

/-- The basic variables, one per row. -/
def basic : List Variable := b.rows.map (·.basic)

/-- The row whose basic variable is `x`. -/
def position? (x : Variable) : Option Nat := b.basic.idxOf? x

def isBasic (x : Variable) : Bool := b.basic.contains x

/-- The coefficients of a variable in the basis rows. -/
def column (x : Variable) : List α := b.rows.map (·.equation.coefficientOf x)

/-- The right sides of the basis rows. -/
def scalars : List α := b.rows.map (·.equation.scalar)

/-- The columns of the basic variables. -/
def matrix : Square α b.dimension :=
  Square.ofEntries fun i j => b.rows[i].equation.coefficientOf b.rows[j].basic

/-- A table of the basic variables' positions, filled in row by row. -/
def positions (n : Nat) : Array (Option Nat) :=
  b.basic.zipIdx.foldl (fun table (x, k) => table.setIfInBounds x (some k)) (Array.replicate n none)

/-- Writes a term into the column of its variable, if that is basic. -/
def enter {m : Nat} (positions : Array (Option Nat)) (row : Vector α m) (a : Addend α) :
    Vector α m :=
  match positions[a.var]?.join with
  | some k => row.setIfInBounds k a.coefficient
  | none => row

/-- The row of an equation in the matrix, filled in term by term. -/
def filledRow (positions : Array (Option Nat)) (m : Nat) (e : Equation α) : Vector α m :=
  e.addends.foldl (enter positions) (Vector.replicate m 0)

end CrashBasis

end ReluSolver
