import ReluSolver.Basis.Square
import ReluSolver.Fault

/-!
LU factors of a square matrix, with partial pivoting.

The strict lower triangle holds `L`, whose diagonal is one, and the rest holds `U`. Row `i` of the
product is row `order[i]` of the factorized matrix.
-/

namespace ReluSolver

structure Lu (α : Type) (m : Nat) where
  factors : Square α m
  order : Vector (Fin m) m

namespace Lu

variable {α : Type} [Scalar α] {m : Nat}

def identity : Lu α m := ⟨Square.identity, Vector.ofFn id⟩

/-- The row from `k` on with the largest entry in column `k`; of equal ones the first. -/
def pivotRow (a : Square α m) (k : Fin m) : Fin m :=
  ((List.finRange m).filter (k < ·)).foldl (fun best i =>
    if Scalar.abs (a[best][k]) < Scalar.abs (a[i][k]) then i else best) k

/-- A row below the pivot row `top`, with its multiplier of `top` stored in column `k`. -/
def eliminateRow (k : Fin m) (top row : Vector α m) : Vector α m :=
  let factor := row[k] / top[k]
  Vector.ofFn fun j =>
    if j = k then factor
    else if k < j && !(factor == 0) then row[j] - factor * top[j]
    else row[j]

/-- Moves the pivot of column `k` to the diagonal and eliminates below it. -/
def eliminate (pivotTolerance : α) (s : Lu α m) (k : Fin m) : Except FactorError (Lu α m) :=
  let p := pivotRow s.factors k
  if pivotTolerance ≤ Scalar.abs s.factors[p][k] then
    let swapped := s.factors.swap k p
    let top := swapped[k]
    .ok {
      factors := swapped.mapFinIdx fun i row below =>
        if k < ⟨i, below⟩ then eliminateRow k top row else row
      order := s.order.swap k p }
  else
    .error (.singular k)

def factorize (a : Square α m) (pivotTolerance : α) : Except FactorError (Lu α m) :=
  (List.finRange m).foldlM (eliminate pivotTolerance) ⟨a, Vector.ofFn id⟩

/-- The columns before, or after, the `i`-th. -/
def before (i : Fin m) : List (Fin m) := (List.finRange m).filter (· < i)

def after (i : Fin m) : List (Fin m) := (List.finRange m).filter (i < ·)

/-- The solution of `A · x = y`: `L · w` is `y` in pivot order, and `U · x = w`. -/
def solve (s : Lu α m) (y : Vector α m) : Vector α m :=
  let a := s.factors
  let permuted := s.order.map (y[·])
  let forward := (List.finRange m).foldl (fun (z : Vector α m) (i : Fin m) =>
    z.set i (z[i] - Scalar.sum ((before i).map fun j => a[i][j] * z[j]))) permuted
  (List.finRange m).reverse.foldl (fun (z : Vector α m) (i : Fin m) =>
    z.set i ((z[i] - Scalar.sum ((after i).map fun j => a[i][j] * z[j])) / a[i][i])) forward

/-- The sum of products down column `i`, starting from zero. -/
def columnSum (a : Square α m) (z : Vector α m) (i : Fin m) (rows : List (Fin m)) : α :=
  rows.foldl (fun total k => total + a[k][i] * z[k]) 0

/-- The solution of `x · A = y`: `z · U = y`, then `w · L = z`, then `w` is put back in row order.
-/
def solveTransposed (s : Lu α m) (y : Vector α m) : Vector α m :=
  let a := s.factors
  let forward := (List.finRange m).foldl (fun (z : Vector α m) (i : Fin m) =>
    z.set i ((z[i] - columnSum a z i (before i)) / a[i][i])) y
  let backward := (List.finRange m).reverse.foldl (fun (z : Vector α m) (i : Fin m) =>
    z.set i (z[i] - columnSum a z i (after i))) forward
  (List.finRange m).foldl (fun (x : Vector α m) (i : Fin m) =>
    x.set s.order[i] backward[i]) y

/-- The inverse, one column at a time. -/
def invert (s : Lu α m) : Square α m :=
  let columns : Vector (Vector α m) m := Vector.ofFn fun j => s.solve (unitVector j)
  Square.ofEntries fun i j => columns[j][i]

/-- `solve` for a vector whose length is still to be checked. -/
def solveArray (s : Lu α m) (y : Array α) : Except Fault (Array α) :=
  if h : y.size = m then .ok (s.solve ⟨y, h⟩).toArray else .error .solveLength

/-- `solveTransposed` for a vector whose length is still to be checked. -/
def solveTransposedArray (s : Lu α m) (y : Array α) : Except Fault (Array α) :=
  if h : y.size = m then .ok (s.solveTransposed ⟨y, h⟩).toArray
  else .error .transposedSolveLength

end Lu

end ReluSolver
