import ReluSolver.Deduction.Basic

/-!
Bounds from linear rows.

In a row `Σ aᵢ·xᵢ = c` the term `aⱼ·xⱼ` is `c` less the other terms, and these range over an
interval known from the bounds of their variables. The range of the whole row is added up once, and
taking one term out of it again gives the range of the others.
-/

namespace ReluSolver

/-- A sum in which infinite summands are counted instead of added. -/
structure CountedSum (α : Type) where
  finite : α
  infinite : Nat

namespace CountedSum

variable {α : Type} [Scalar α]

def zero : CountedSum α := ⟨0, 0⟩

def add (s : CountedSum α) (x : α) : CountedSum α :=
  if Scalar.isFinite x then { s with finite := s.finite + x }
  else { s with infinite := s.infinite + 1 }

/-- The sum without one of its summands; with another infinite one it is `unbounded`. -/
def without (s : CountedSum α) (x unbounded : α) : α :=
  match s.infinite with
  | 0 => s.finite - x
  | 1 => if Scalar.isFinite x then unbounded else s.finite
  | _ => unbounded

end CountedSum

/-- The least and the greatest value of a sum of terms. -/
structure RowRange (α : Type) where
  least : CountedSum α
  greatest : CountedSum α

namespace RowRange

variable {α : Type} [Scalar α]

/-- The range of `coefficient · x`. -/
def ofTerm (coefficient : α) (x : Interval α) : Interval α :=
  if 0 < coefficient then ⟨coefficient * x.lower, coefficient * x.upper⟩
  else ⟨coefficient * x.upper, coefficient * x.lower⟩

def add (r : RowRange α) (term : Interval α) : RowRange α :=
  ⟨r.least.add term.lower, r.greatest.add term.upper⟩

/-- The range of the left side of a row. -/
def ofRow (row : Equation α) (s : Store α) : Except Fault (RowRange α) :=
  row.addends.foldlM (fun r a => return r.add (ofTerm a.coefficient (← s.interval a.var)))
    ⟨CountedSum.zero, CountedSum.zero⟩

/-- The range of the row without one of its terms. -/
def without (r : RowRange α) (term : Interval α) : Interval α :=
  ⟨r.least.without term.lower (-Scalar.infinity), r.greatest.without term.upper Scalar.infinity⟩

/-- The range of `x` where `coefficient · x` and a value of `rest` add up to `scalar`. -/
def solveFor (coefficient scalar : α) (rest : Interval α) : Interval α :=
  let fromLower := (scalar - rest.lower) / coefficient
  let fromUpper := (scalar - rest.upper) / coefficient
  if 0 < coefficient then ⟨fromUpper, fromLower⟩ else ⟨fromLower, fromUpper⟩

end RowRange

namespace Effort

open Deduction

variable {α : Type} [Scalar α] (effort : Effort α)

/-- Whether a value is worth to replace a bound. -/
def isGain (side : Side) (bounds : Interval α) (value : α) : Bool :=
  let isFar := match side with
    | .lower =>
      !(Scalar.isFinite bounds.lower && decide (value ≤ bounds.lower + effort.leastGain))
    | .upper =>
      !(Scalar.isFinite bounds.upper && decide (bounds.upper - effort.leastGain ≤ value))
  Scalar.isFinite value && isFar

/-- Tightens one side of a variable if that is worth it. -/
def improve (t : Tightening α) : Deduction α Bool := do
  let bounds ← observe (·.interval t.var)
  if effort.isGain t.side bounds t.value then derive t else return false

/-- The values that a row, with its range, offers to the variable of one of its terms. -/
def offer (row : Equation α) (range : RowRange α) (a : Addend α) (bounds : Interval α) :
    Interval α :=
  RowRange.solveFor a.coefficient row.scalar
    (range.without (RowRange.ofTerm a.coefficient bounds))

/-- Tightens the variables of terms of a row; gives one variable for each new bound. -/
def examineTerms (row : Equation α) (range : RowRange α) :
    List (Addend α) → Deduction α (List Variable)
  | [] => return []
  | a :: rest => do
    if effort.tolerance.isZero a.coefficient then
      examineTerms row range rest
    else
      let values := offer row range a (← observe (·.interval a.var))
      let below ← effort.improve (.lower a.var values.lower)
      let above ← effort.improve (.upper a.var values.upper)
      return List.replicate (below.toNat + above.toNat) a.var ++ (← examineTerms row range rest)

/-- One pass over one row; gives one variable for each new bound. -/
def examineRow (row : Equation α) : Deduction α (List Variable) := do
  if row.isEmpty then
    if effort.tolerance.isZero row.scalar then return [] else throw .conflict
  examineTerms effort row (← observe (RowRange.ofRow row)) row.addends

/-- One pass over rows in order. -/
def passOver : List (Equation α) → Deduction α (List Variable)
  | [] => return []
  | row :: rest => do
    let tightened ← effort.examineRow row
    return tightened ++ (← passOver rest)

/-- Whether a row mentions one of some variables. -/
def mentions (row : Equation α) (xs : List Variable) : Bool := row.addends.any (xs.contains ·.var)

/-- Passes over `pending` rows. Where it goes on, every later pass is over those of all `rows` that
mention a variable tightened in the pass before it. -/
def passes (rows : List (Equation α)) (untilSaturation : Bool) :
    (rounds : Nat) → (pending : List (Equation α)) → Deduction α Nat
  | 0, _ => return 0
  | rounds + 1, pending => do
    let tightened ← effort.passOver pending
    if !untilSaturation || tightened.isEmpty then return tightened.length
    let next := rows.filter (mentions · tightened)
    return tightened.length + (← passes rows untilSaturation rounds next)

/-- Tightens bounds with rows whose variables are all in the store; gives the number of new bounds.
-/
def examineRows (rows : List (Equation α)) (untilSaturation : Bool) : Deduction α Nat := do
  let size := (← get).size
  if rows.any fun row => row.addends.any fun a => decide (size ≤ a.var) then
    throw (.fault .indexOutOfRange)
  effort.passes rows untilSaturation effort.rounds rows

end Effort

end ReluSolver
