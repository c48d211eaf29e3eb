import ReluSolver.Basis.Factorization
import ReluSolver.Fault

/-! What the changes of a factorized basis do in place, successful or not. Most of them
write only once the new factors are there. An exchange is written before, and it is
taken back to the letter if the basis that it leads to is refused. -/

namespace ReluSolver

variable {σ ε β γ : Type}

section Programs

theorem get_bind_run (next : σ → EStateM ε σ γ) (s : σ) : (get >>= next) s = next s s := rfl

theorem modify_bind_run (f : σ → σ) (next : PUnit → EStateM ε σ γ) (s : σ) :
    (modify f >>= next) s = next ⟨⟩ (f s) := rfl

theorem ofExcept_bind_run (x : Except ε β) (next : β → EStateM ε σ γ) (s : σ) :
    (MonadExcept.ofExcept x >>= next) s =
      match x with
      | .ok value => next value s
      | .error cause => .error cause s := by
  cases x <;> rfl

theorem tryCatch_run (x : EStateM ε σ β) (handler : ε → EStateM ε σ β) (s : σ) :
    tryCatch x handler s =
      match x s with
      | .ok value next => .ok value next
      | .error cause left => handler cause left := by
  change EStateM.tryCatch x handler s = _
  unfold EStateM.tryCatch
  cases x s <;> rfl

end Programs

namespace Changing

/-- The state after an operation: the one that it gives, or the old one if it fails. -/
def settled (s : σ) : Except FactorError σ → EStateM.Result FactorError σ Unit
  | .ok next => .ok () next
  | .error cause => .error cause s

variable {change : Changing σ Unit} {s : σ} {result : Except FactorError σ}

theorem outcome_of_settled (settles : change s = settled s result) : change.outcome s = result := by
  rw [outcome, settles]
  cases result <;> rfl

end Changing

open Changing

variable {α : Type} [Scalar α] {m : Nat}

namespace EtaFile

theorem renew_run (basis : Square α m) (f : EtaFile α m) :
    renew basis f = settled f do
      let factors ← Lu.factorize basis f.config.pivotTolerance
      return { f with baseline := basis, factors := factors, etas := [], explicit := some basis } := by
  rw [renew, get_bind_run, ofExcept_bind_run]
  cases Lu.factorize basis f.config.pivotTolerance <;> rfl

theorem refactorizeAs_eq (f : EtaFile α m) (basis : Square α m) : f.refactorizeAs basis = do
    let factors ← Lu.factorize basis f.config.pivotTolerance
    return { f with baseline := basis, factors := factors, etas := [], explicit := some basis } :=
  outcome_of_settled (renew_run basis f)

theorem renew_settled (basis : Square α m) (f : EtaFile α m) :
    renew basis f = settled f (f.refactorizeAs basis) := by
  rw [refactorizeAs_eq, renew_run]

/-- Without the exchange, and with the basis that was known, the chain is the old one. -/
theorem append_undone (f : EtaFile α m) (e : Eta α m) :
    { f.append e with etas := (f.append e).etas.dropLast, explicit := f.explicit } = f := by
  simp [append]

theorem exchange_run (e : Eta α m) (f : EtaFile α m) :
    exchange e f = settled f
      (if f.config.threshold ≤ (f.append e).etas.length then (f.append e).refactorize
      else .ok (f.append e)) := by
  have longer : (f.append e).etas.length = f.etas.length + 1 := by simp [append]
  rw [longer, exchange, get_bind_run, modify_bind_run]
  by_cases due : f.config.threshold ≤ f.etas.length + 1
  · simp only [due, decide_true, if_true]
    rw [tryCatch_run, get_bind_run, renew_settled, refactorize]
    cases (f.append e).refactorizeAs (f.append e).materialize with
    | ok next => rfl
    | error cause => exact congrArg (EStateM.Result.error cause) (append_undone f e)
  · simp only [due, decide_false, if_false]
    rfl

theorem push_eq (f : EtaFile α m) (e : Eta α m) : f.push e =
    if f.config.threshold ≤ (f.append e).etas.length then (f.append e).refactorize
    else .ok (f.append e) :=
  outcome_of_settled (exchange_run e f)

theorem exchange_settled (e : Eta α m) (f : EtaFile α m) : exchange e f = settled f (f.push e) := by
  rw [push_eq, exchange_run]

end EtaFile

namespace DenseBasis

theorem renew_run (basis : Square α m) (f : DenseBasis α m) :
    renew basis f = settled f do
      let factors ← Lu.factorize basis f.config.pivotTolerance
      return { f with basis := basis, factors := factors } := by
  rw [renew, get_bind_run, ofExcept_bind_run]
  cases Lu.factorize basis f.config.pivotTolerance <;> rfl

theorem replaceBasis_eq (f : DenseBasis α m) (basis : Square α m) : f.replaceBasis basis = do
    let factors ← Lu.factorize basis f.config.pivotTolerance
    return { f with basis := basis, factors := factors } :=
  outcome_of_settled (renew_run basis f)

theorem renew_settled (basis : Square α m) (f : DenseBasis α m) :
    renew basis f = settled f (f.replaceBasis basis) := by
  rw [replaceBasis_eq, renew_run]

end DenseBasis

end ReluSolver
