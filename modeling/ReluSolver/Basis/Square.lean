import ReluSolver.Number.Scalar

/-!
Square matrices and vectors of a fixed dimension, and why an operation on them can fail.
-/

namespace ReluSolver

/-- The two ways of keeping a basis factorized. -/
inductive FactorKind where
  /-- Factors of an earlier basis, followed by a chain of column exchanges. -/
  | forrestTomlin
  /-- Factors of the basis itself, computed again after every exchange. -/
  | denseLu
deriving DecidableEq, Repr

namespace FactorKind

def text : FactorKind → String
  | forrestTomlin => "forrest-tomlin"
  | denseLu => "dense-lu"

/-- Reads a kind by one of its names, in any case. -/
def ofText? (s : String) : Option FactorKind :=
  match s.toLower with
  | "forrest-tomlin" | "forresttomlin" | "ft" => some forrestTomlin
  | "dense-lu" | "denselu" | "lu" => some denseLu
  | _ => none

/-- The message for a name that no kind has. -/
def unknownMessage (s : String) : String :=
  s!"unknown factorization kind '{s}', expected 'forrest-tomlin' or 'dense-lu'"

end FactorKind

inductive FactorError where
  /-- No entry of the column is large enough to divide by. -/
  | singular (column : Nat)
  /-- The matrix itself is asked for, but only its factors are at hand. -/
  | notExplicit
  | kindMismatch (expected found : FactorKind)
  | dimensionMismatch (expected found : Nat)
deriving DecidableEq, Repr

def FactorError.message : FactorError → String
  | singular column => s!"basis is singular: no acceptable pivot in column {column}"
  | notExplicit =>
    "operation requires an explicit basis, but only the factorized form is available"
  | kindMismatch expected found =>
    s!"cannot exchange state between a {expected.text} and a {found.text} factorization"
  | dimensionMismatch expected found =>
    s!"dimension mismatch: expected {expected}, found {found}"

def checkLength (expected found : Nat) : Except FactorError Unit :=
  if expected = found then .ok () else .error (.dimensionMismatch expected found)

/-- The entries as a vector of dimension `m`, if there are exactly that many. -/
def toVector {α : Type} (m : Nat) (entries : Array α) : Except FactorError (Vector α m) :=
  if h : entries.size = m then .ok ⟨entries, h⟩
  else .error (.dimensionMismatch m entries.size)

/-- A square matrix as the vector of its rows. -/
abbrev Square (α : Type) (m : Nat) := Vector (Vector α m) m

namespace Square

variable {α : Type} {m : Nat}

/-- The matrix with the given entries. -/
def ofEntries (entry : Fin m → Fin m → α) : Square α m :=
  Vector.ofFn fun i => Vector.ofFn fun j => entry i j

def identity [Scalar α] : Square α m :=
  ofEntries fun i j => if i = j then 1 else 0

/-- The entries row by row. -/
def toFlat (a : Square α m) : Array α := (a.map Vector.toArray).toArray.flatten

/-- Reads the entries row by row; entries past the last row are ignored. -/
def ofFlat [Scalar α] (m : Nat) (entries : Array α) : Except FactorError (Square α m) :=
  if entries.size < m * m then .error (.dimensionMismatch (m * m) entries.size)
  else .ok (ofEntries fun i j => entries.getD (i * m + j) 0)

/-- The matrix with the given rows; their length has to be their number. -/
def ofRows [Scalar α] (rows : Array (Array α)) : Except FactorError (Square α rows.size) :=
  let columns := (rows[0]?.map Array.size).getD 0
  if columns = rows.size then .ok (ofEntries fun i j => (rows.getD i #[]).getD j 0)
  else .error (.dimensionMismatch (rows.size * rows.size) (rows.size * columns))

end Square

/-- The `k`-th unit vector. -/
def unitVector {α : Type} [Scalar α] {m : Nat} (k : Nat) : Vector α m :=
  Vector.ofFn fun i => if i.val = k then 1 else 0

/-- The scalar product in eight interleaved lanes: full blocks of eight products are summed lane by
lane, opposite lanes are joined, and the products past the last full block follow one by one. -/
def laneDot {α : Type} [Scalar α] (xs ys : Array α) : α :=
  let products := Array.zipWith (· * ·) xs ys
  let blocks := products.size / 8
  let lane (j : Nat) : α :=
    (List.range blocks).foldl (fun total b => total + products.getD (8 * b + j) 0) 0
  let joined := 0 + (lane 0 + lane 4) + (lane 1 + lane 5) + (lane 2 + lane 6) + (lane 3 + lane 7)
  (products.toList.drop (8 * blocks)).foldl (· + ·) joined

end ReluSolver
