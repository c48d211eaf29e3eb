import ReluSolver.Basis.Crash
import ReluSolver.Basis.Factorization
import ReluSolver.Deduction.Row

/-!
Rows from the inverse of the basis.

The equations of a basis are `B·x_B + N·x_N = c`. With row `r` of the inverse of `B`, the
combination `r·(B·x_B + N·x_N) = r·c` mentions one basic variable only, with coefficient one.
-/

namespace ReluSolver

variable {α : Type} [Scalar α]

namespace CrashBasis

/-- The combination of the basis equations by one row of the inverse. -/
def combination (b : CrashBasis α) (t : Tolerance α) (basic : Variable) (inverseRow : List α) :
    Equation α :=
  b.nonBasic.foldl (fun e x =>
    let coefficient := Scalar.dot (b.column x) inverseRow
    if t.isZero coefficient then e else e.add coefficient x)
    ((Equation.constant (Scalar.dot b.scalars inverseRow)).add 1 basic)

/-- The combinations by all rows of an inverse that is known as a whole. -/
def explicitRows (b : CrashBasis α) (t : Tolerance α) (f : Factorization α) :
    Except FactorError (List (Equation α)) := do
  let inverse ← f.inverseRows (b.dimension * b.dimension)
  return List.zipWith (fun x row => b.combination t x row.toList) b.basic inverse.toList

/-- The combinations by the rows of the inverse, each of them computed on its own. -/
def implicitRows (b : CrashBasis α) (t : Tolerance α) (f : Factorization α) :
    Except FactorError (List (Equation α)) :=
  b.basic.zipIdx.mapM fun (x, i) => do
    let unit : Vector α b.dimension := unitVector i
    let row ← f.backward unit.toArray b.dimension
    return b.combination t x row.toList

end CrashBasis

namespace Effort

variable (effort : Effort α)

/-- Tightens bounds with rows that may fail to be computed. -/
def examineComputed (rows : Except FactorError (List (Equation α))) (untilSaturation : Bool) :
    Deduction α Nat := do
  match rows with
  | .ok rows => effort.examineRows rows untilSaturation
  | .error cause => throw (.factorization cause)

/-- Tightens bounds with the rows of an inverse that is known as a whole. -/
def examineInverse (b : CrashBasis α) (f : Factorization α) (untilSaturation : Bool) :
    Deduction α Nat :=
  effort.examineComputed (b.explicitRows effort.tolerance f) untilSaturation

/-- Tightens bounds with the rows of the inverse, each of them computed on its own. -/
def examineInverseByRow (b : CrashBasis α) (f : Factorization α) (untilSaturation : Bool) :
    Deduction α Nat :=
  effort.examineComputed (b.implicitRows effort.tolerance f) untilSaturation

end Effort

end ReluSolver
