import ReluSolver.Number.Scalar

/-!
Measures of an interval `[lower, upper]` whose ends may be infinite.
-/

namespace ReluSolver

/-- The bounds of one variable. -/
structure Interval (α : Type) where
  lower : α
  upper : α

namespace Interval

variable {α : Type} [Scalar α]

/-- The interval of all numbers. -/
def all : Interval α := ⟨-Scalar.infinity, Scalar.infinity⟩

/-- The middle of a finite interval, the finite end of a half-unbounded one, and else zero. -/
def midpoint (i : Interval α) : α :=
  match Scalar.isFinite i.lower, Scalar.isFinite i.upper with
  | true, true => i.lower / 2 + i.upper / 2
  | true, false => i.lower
  | false, true => i.upper
  | false, false => 0

/-- How far from its finite end a half-unbounded interval is cut. -/
def cutDistance (finiteEnd : α) : α := Scalar.max (Scalar.abs finiteEnd) 1

/-- A number to cut the interval at, such that neither part is the whole. -/
def splitPoint (i : Interval α) : α :=
  match Scalar.isFinite i.lower, Scalar.isFinite i.upper with
  | true, true => i.midpoint
  | true, false => Scalar.min (i.lower + cutDistance i.lower) Scalar.largest
  | false, true => Scalar.max (i.upper - cutDistance i.upper) (-Scalar.largest)
  | false, false => 0

/-- The length of a finite interval; any other one is infinitely wide. -/
def width (i : Interval α) : α :=
  if Scalar.isFinite i.lower && Scalar.isFinite i.upper then i.upper - i.lower
  else Scalar.infinity

/-- `(lower + upper) / (upper - lower)`: zero for an interval balanced around zero, and one for a
point or an unbounded interval. -/
def polarity (i : Interval α) : α :=
  if !Scalar.isFinite i.lower || !Scalar.isFinite i.upper || decide (i.upper ≤ i.lower) then 1
  else (i.lower + i.upper) / (i.upper - i.lower)

end Interval

end ReluSolver
