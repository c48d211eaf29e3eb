import ReluSolver.Basis.Square
import ReluSolver.Fault

/-!
Eta matrices: the identity with one column replaced.

Exchanging column `p` of a basis `B` for `a` turns it into `B · E`, where column `p` of `E` is the
solution `d` of `B · d = a`.
-/

namespace ReluSolver

/-- The identity of dimension `m` with its column `pivot` replaced by `column`. -/
structure Eta (α : Type) (m : Nat) where
  pivot : Fin m
  column : Vector α m

namespace Eta

variable {α : Type} [Scalar α] {m : Nat}

/-- An eta matrix whose pivot entry is large enough to divide by. -/
def make (p : Nat) (column : Vector α m) (pivotTolerance : α) : Except FactorError (Eta α m) :=
  if h : p < m then
    if pivotTolerance ≤ Scalar.abs column[p] then .ok ⟨⟨p, h⟩, column⟩
    else .error (.singular p)
  else
    .error (.dimensionMismatch m p)

def pivotEntry (e : Eta α m) : α := e.column[e.pivot]

/-- An entry of the solution of `E · w = z`, where `wp` is its pivot entry. -/
def solvedEntry (e : Eta α m) (wp : α) (i : Nat) (zi : α) : α :=
  if i = e.pivot.val then wp
  else
    match e.column[i]? with
    | some di => zi - di * wp
    | none => zi

/-- The solution `w` of `E · w = z`. -/
def solve (e : Eta α m) (z : Vector α m) : Vector α m :=
  let wp := z[e.pivot] / e.pivotEntry
  z.mapIdx (e.solvedEntry wp)

/-- `Σ yᵢ·dᵢ` without the pivot. -/
def offPivot (e : Eta α m) (y : List α) : α :=
  let products := (List.zip y e.column.toList).mapIdx fun i (yi, di) => (i, yi * di)
  Scalar.sum ((products.filter (·.1 != e.pivot.val)).map (·.2))

/-- The solution `v` of `v · E = y`. -/
def solveTransposed (e : Eta α m) (y : Vector α m) : Vector α m :=
  y.set e.pivot ((y[e.pivot] - e.offPivot y.toList) / e.pivotEntry)

/-- `solve` for a vector of any length that has the pivot. -/
def solveArray (e : Eta α m) (z : Array α) : Except Fault (Array α) :=
  return z.mapIdx (e.solvedEntry ((← fetch z e.pivot) / e.pivotEntry))

/-- `solveTransposed` for a vector of any length that has the pivot. -/
def solveTransposedArray (e : Eta α m) (y : Array α) : Except Fault (Array α) :=
  return y.setIfInBounds e.pivot (((← fetch y e.pivot) - e.offPivot y.toList) / e.pivotEntry)

/-- One row of `B · E`. -/
def multiplyRow (e : Eta α m) (row : Vector α m) : Vector α m :=
  row.set e.pivot (laneDot row.toArray e.column.toArray)

/-- `B · E`. -/
def multiply (e : Eta α m) (b : Square α m) : Square α m :=
  b.map e.multiplyRow

/-- `multiply` for rows whose number and lengths are still to be checked. -/
def multiplyRows (e : Eta α m) (rows : Array (Array α)) : Except Fault (Array (Array α)) := do
  if rows.isEmpty then throw .indexOutOfRange
  rows.mapM fun row =>
    if h : row.size = m then return (e.multiplyRow ⟨row, h⟩).toArray else throw .indexOutOfRange

end Eta

end ReluSolver
