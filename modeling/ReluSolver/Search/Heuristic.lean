import ReluSolver.Choice
import ReluSolver.Deduction.Phase
import ReluSolver.Query.Basic

/-!
Which unfixed ReLU a search looks at next. Of equally good ones the earliest is chosen.
-/

namespace ReluSolver

inductive BranchingHeuristic where
  /-- The ReLU whose input interval is most balanced around zero. -/
  | polarity
  | earliestRelu
  /-- The ReLU with the widest input interval. -/
  | widestInterval
deriving DecidableEq, Repr

namespace BranchingHeuristic

def text : BranchingHeuristic → String
  | polarity => "polarity"
  | earliestRelu => "earliest-relu"
  | widestInterval => "widest-interval"

def ofText? : String → Option BranchingHeuristic
  | "polarity" => some polarity
  | "earliest-relu" => some earliestRelu
  | "widest-interval" => some widestInterval
  | _ => none

variable {α : Type} [Scalar α]

/-- A ReLU's position and the bounds of its input. -/
structure Candidate (α : Type) where
  index : Nat
  bounds : Interval α

/-- The unfixed ReLUs, from position `index` on. -/
def unfixedFrom (s : Store α) (t : Tolerance α) (index : Nat) :
    List Relu → Except Fault (List (Candidate α))
  | [] => return []
  | r :: rest => do
    let phase ← r.phase s t
    let bounds ← s.interval r.b
    let later ← unfixedFrom s t (index + 1) rest
    return if phase = .unfixed then ⟨index, bounds⟩ :: later else later

/-- Whether the first ReLU is to be preferred to the second. -/
def prefers : BranchingHeuristic → Candidate α → Candidate α → Bool
  | polarity, x, y =>
    Scalar.compareTotal (Scalar.abs x.bounds.polarity) (Scalar.abs y.bounds.polarity) == .lt
  | earliestRelu, _, _ => false
  | widestInterval, x, y => Scalar.compareTotal x.bounds.width y.bounds.width == .gt

/-- The position of the ReLU to branch on, if one is unfixed. -/
def select (h : BranchingHeuristic) (q : Query α) (s : Store α) (t : Tolerance α) :
    Except Fault (Option Nat) := do
  let unfixed ← unfixedFrom s t 0 q.relus
  return (firstBest? h.prefers unfixed).map (·.index)

end BranchingHeuristic

end ReluSolver
