import ReluSolver.Basis.Factorization
import ReluSolver.Deduction.Basic

/-!
The settings of a search engine.
-/

namespace ReluSolver

structure SearchConfig (α : Type) where
  /-- The tolerance of every comparison; it is checked where it is used. -/
  epsilon : α
  kind : FactorKind
  factor : FactorConfig α
  /-- The most rounds of propagation at one node. -/
  rounds : Nat
  leastGain : α
  /-- The candidates tried at a node after the one at the middle of all intervals. -/
  randomCandidates : Nat
  /-- The most rounds in which a candidate is repaired. -/
  repairRounds : Nat
  /-- The most exchanges tried to free fixed basic variables. -/
  candidatePivots : Nat
deriving BEq

namespace SearchConfig

variable {α : Type} [Scalar α]

def default : SearchConfig α where
  epsilon := Tolerance.defaultEpsilon
  kind := .forrestTomlin
  factor := FactorConfig.default
  rounds := 20
  leastGain := 1e-6
  randomCandidates := 4
  repairRounds := 8
  candidatePivots := 16

def withRounds (c : SearchConfig α) (rounds : Nat) : SearchConfig α :=
  { c with rounds := max rounds 1 }

def withRepairRounds (c : SearchConfig α) (rounds : Nat) : SearchConfig α :=
  { c with repairRounds := max rounds 1 }

def tolerance (c : SearchConfig α) : Except Fault (Tolerance α) := Tolerance.ofEpsilon c.epsilon

def effort (c : SearchConfig α) : Except Fault (Effort α) :=
  return Effort.make (← c.tolerance) c.leastGain c.rounds

end SearchConfig

end ReluSolver
