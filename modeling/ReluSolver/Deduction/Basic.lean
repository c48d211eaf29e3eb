import ReluSolver.Basis.Square
import ReluSolver.Bounds.Store

/-!
Deductions: steps that derive new bounds from the bounds in a store.

A deduction counts the bounds that it made stricter. It ends in a conflict as soon as a variable has
no value left, and what it derived until then stays in the store.
-/

namespace ReluSolver

/-- Why a deduction stopped. -/
inductive Setback where
  /-- No assignment lies within the bounds. -/
  | conflict
  /-- The rows to deduce from could not be computed. -/
  | factorization (cause : FactorError)
  | fault (cause : Fault)
deriving DecidableEq, Repr

def Setback.message : Setback → String
  | conflict => "bounds are infeasible"
  | factorization cause => s!"basis factorization failed: {cause.message}"
  | fault cause => cause.message?.getD ""

/-- A step that derives bounds. -/
abbrev Deduction (α β : Type) := Store.Action Setback α β

namespace Deduction

variable {α : Type}

/-- What a function of the store gives. -/
def observe {β : Type} (f : Store α → Except Fault β) : Deduction α β := fun s =>
  match f s with
  | .ok value => .ok value s
  | .error cause => .error (.fault cause) s

variable [Scalar α]

/-- Whether a tightening gave a new bound; an infeasible one is a conflict. -/
def derive (t : Tightening α) : Deduction α Bool := fun s =>
  match Store.tighten t s with
  | .ok .infeasible s => .error .conflict s
  | .ok outcome s => .ok outcome.isAccepted s
  | .error cause s => .error (.fault cause) s

/-- Derives tightenings one after another, each read off the store that the ones before it left. -/
def deriveEach : List (Store α → Except Fault (Tightening α)) → Deduction α Nat
  | [] => return 0
  | rule :: rest => do
    let isNew ← derive (← observe rule)
    return isNew.toNat + (← deriveEach rest)

end Deduction

/-- How far deductions go. -/
structure Effort (α : Type) where
  tolerance : Tolerance α
  /-- A finite bound is replaced only by one that is better by more than this. -/
  leastGain : α
  /-- The most rounds of one deduction. -/
  rounds : Nat

/-- At least one round is made. -/
def Effort.make {α : Type} (tolerance : Tolerance α) (leastGain : α) (rounds : Nat) : Effort α :=
  ⟨tolerance, leastGain, max rounds 1⟩

end ReluSolver
