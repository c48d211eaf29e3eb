import ReluSolver.Division.PhaseSplit
import ReluSolver.Division.Strategy
import ReluSolver.Division.Subquery

/-!
Dividing a region into subqueries: it is halved, and so are its parts, until there are enough of
them.
-/

namespace ReluSolver

/-- What dividing needs to know about a run. -/
structure Division (α : Type) where
  query : Query α
  strategy : DivideStrategy
  effort : Effort α

namespace Division

variable {α : Type} [Scalar α] (d : Division α)

/-- Divides a region in two; an unresolved strategy bisects. -/
def halve (split : CaseSplit α) : Except Fault (List (CaseSplit α)) :=
  match d.strategy with
  | .polarity => PhaseSplit.divide d.query d.effort split
  | .auto | .largestInterval => Bisection.divide d.query split

/-- Halves regions, and their parts, a number of times. -/
def refine : (times : Nat) → List (CaseSplit α) → Except Fault (List (CaseSplit α))
  | 0, parts => return parts
  | times + 1, parts => do
    let halves ← parts.mapM d.halve
    refine times halves.flatten

/-- How often a region is halved to get `count` parts; `count` is a power of two. -/
def halvings (count : Nat) : Except Fault Nat :=
  let times := Nat.log2 count
  if count = Nat.pow 2 times then .ok times else .error (.countNotPowerOfTwo count)

/-- Divides the region of a subquery into `count` subqueries. -/
def subqueries (count : Nat) (parent : String) (depth : Nat) (split : CaseSplit α)
    (timeout : Duration) : Except Fault (List (Subquery α)) := do
  let parts ← d.refine (← halvings count) [split]
  return Subquery.ofParts parent (← nextIndex depth) timeout parts

/-- The region of a whole run: the box of the inputs where intervals are bisected. -/
def wholeRegion : Except Fault (CaseSplit α) := do
  if d.strategy = .polarity then return .empty
  let sides ← d.query.inputs.mapM fun x => do
    let bounds ← d.query.interval x
    let below := if Scalar.isFinite bounds.lower then [.lower x bounds.lower] else []
    let above := if Scalar.isFinite bounds.upper then [.upper x bounds.upper] else []
    return below ++ above
  return ⟨sides.flatten⟩

end Division

end ReluSolver
