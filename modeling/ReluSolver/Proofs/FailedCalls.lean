import ReluSolver.Basis.Workspace
import ReluSolver.Proofs.ExactNumbers
import ReluSolver.Proofs.InPlaceChanges

/-! Calls that fail change nothing. On the way from a workspace to the basis that is changed
nothing is written that a change in place has not written. -/

namespace ReluSolver

open Changing Extended

theorem Changing.within_settled {σ τ : Type} {change : Changing σ Unit} {s : σ}
    {result : Except FactorError σ} (settles : change s = settled s result) (wrap : σ → τ) :
    change.within wrap s = settled (wrap s) (wrap <$> result) := by
  rw [within, settles]
  cases result <;> rfl

variable {α : Type} [Scalar α] {m : Nat}

namespace Factored

theorem setBasis_settled (basis : Square α m) (f : Factored α m) :
    change (EtaFile.renew basis) (DenseBasis.renew basis) f = settled f (f.setBasis basis) := by
  cases f with
  | etaFile f => exact within_settled (EtaFile.renew_settled basis f) etaFile
  | dense f => exact within_settled (DenseBasis.renew_settled basis f) dense

theorem push_settled (e : Eta α m) (f : Factored α m) :
    change (EtaFile.exchange e) (do DenseBasis.renew (e.multiply (← get).basis)) f =
      settled f (f.push e) := by
  cases f with
  | etaFile f => exact within_settled (EtaFile.exchange_settled e f) etaFile
  | dense f => exact within_settled (DenseBasis.renew_settled _ f) dense

theorem refactorize_settled (f : Factored α m) :
    change (do EtaFile.renew (← get).materialize) (pure ()) f = settled f f.refactorize := by
  cases f with
  | etaFile f => exact within_settled (EtaFile.renew_settled _ f) etaFile
  | dense f => rfl

theorem makeExplicit_settled (f : Factored α m) :
    change (do if (← get).explicit.isNone then EtaFile.renew (← get).materialize) (pure ()) f =
      settled f f.makeExplicit := by
  cases f with
  | etaFile f =>
    refine within_settled ?_ etaFile
    rw [get_bind_run, EtaFile.makeExplicit]
    cases f.explicit with
    | none => exact EtaFile.renew_settled _ f
    | some basis => rfl
  | dense f => rfl

end Factored

namespace Factorization

omit [Scalar α] in
theorem change_settled {f : Factorization α} {checked : (f : Factorization α) →
      Except FactorError (Changing (Factored α f.dimension) Unit)}
    {inner : Changing (Factored α f.dimension) Unit}
    {result : Except FactorError (Factored α f.dimension)} (passes : checked f = .ok inner)
    (settles : inner f.factored = settled f.factored result) :
    change checked f = settled f do return { f with factored := ← result } := by
  rw [change, passes]
  dsimp only
  rw [within_settled settles]
  cases result <;> rfl

theorem writeBasis_settled (entries : Array α) (f : Factorization α) :
    writeBasis entries f = settled f (f.setBasis entries) := by
  rw [setBasis, writeBasis]
  cases read : Square.ofFlat f.dimension entries with
  | ok basis => exact change_settled (by rw [read]; rfl) (Factored.setBasis_settled basis f.factored)
  | error cause => rw [change, read]; rfl

theorem exchange_settled (p : Nat) (column : Array α) (f : Factorization α) :
    exchange p column f = settled f (f.push p column) := by
  unfold push exchange
  cases read : toVector f.dimension column with
  | error cause => rw [change, read]; rfl
  | ok entries =>
    simp only [bind, Except.bind]
    cases made : Eta.make p entries f.factored.config.pivotTolerance with
    | error cause =>
      rw [change, read]
      dsimp only
      rw [made]
      rfl
    | ok eta =>
      refine change_settled ?_ (Factored.push_settled eta f.factored)
      rw [read]
      dsimp only
      rw [made]
      rfl

theorem renew_settled (f : Factorization α) : renew f = settled f f.refactorize :=
  change_settled rfl (Factored.refactorize_settled f.factored)

theorem writeExplicit_settled (f : Factorization α) : writeExplicit f = settled f f.makeExplicit :=
  change_settled rfl (Factored.makeExplicit_settled f.factored)

omit [Scalar α] in
theorem overwrite_settled (check : Factorization α → Except FactorError Unit) (source f : Factorization α) :
    (do MonadExcept.ofExcept (check (← get)); set source : Changing (Factorization α) Unit) f =
      settled f do check f; return source := by
  rw [get_bind_run, ofExcept_bind_run]
  cases check f <;> rfl

end Factorization

omit [Scalar α] in
theorem Workspace.change_settled {place : Nat} {inner : Changing (Factorization α) Unit}
    {operation : Factorization α → Except FactorError (Factorization α)}
    (settles : ∀ f, inner f = settled f (operation f)) (w : Workspace α) :
    change place inner w = settled w (w.altered place operation) := by
  unfold change altered
  cases found : w.bases[place]? with
  | none => rfl
  | some f =>
    dsimp only
    rw [within_settled (settles f)]
    obtain ⟨inside, rfl⟩ := List.getElem?_eq_some_iff.mp found
    cases operation w.bases[place] with
    | ok next => rfl
    | error cause =>
      have same : w.bases.set place w.bases[place] = w.bases := List.set_getElem_self inside
      exact congrArg (fun bases => EStateM.Result.error cause { w with bases := bases }) same

namespace Call

theorem perform_settled (call : Call α) (w : Workspace α) :
    call.perform w = settled w (call.result w) := by
  unfold perform
  rw [get_bind_run]
  cases call with
  | setBasis target entries =>
    exact Workspace.change_settled (Factorization.writeBasis_settled entries) w
  | push target pivot column =>
    exact Workspace.change_settled (Factorization.exchange_settled pivot column) w
  | refactorize target => exact Workspace.change_settled Factorization.renew_settled w
  | makeExplicit target => exact Workspace.change_settled Factorization.writeExplicit_settled w
  | toggle target enabled =>
    have toggled (f : Factorization α) :
        (modify (·.toggle enabled) : Changing (Factorization α) Unit) f =
          settled f (.ok (f.toggle enabled)) := rfl
    exact Workspace.change_settled toggled w
  | clone source => rfl
  | store source target =>
    dsimp only [result]
    cases w.bases[source]? with
    | none => rfl
    | some f => exact Workspace.change_settled (Factorization.overwrite_settled f.checkExchange f) w
  | restore target source =>
    dsimp only [result]
    cases w.bases[source]? with
    | none => rfl
    | some f =>
      exact Workspace.change_settled (Factorization.overwrite_settled (·.checkExchange f) f) w
  | invert source =>
    dsimp only [result]
    cases w.bases[source]? with
    | none => rfl
    | some f =>
      dsimp only
      rw [get_bind_run, ofExcept_bind_run]
      cases f.inverseRows w.buffer.size <;> rfl

/-- A call fails where its operation does, and then nothing is changed: not the bases that it is
about, whatever they have been through, and not the buffer. -/
theorem perform_error {w last : Workspace α} {call : Call α} {cause : FactorError}
    (run : call.perform w = .error cause last) : last = w ∧ call.result w = .error cause := by
  rw [perform_settled] at run
  cases given : call.result w with
  | ok next =>
    rw [given] at run
    cases run
  | error other =>
    rw [given] at run
    cases run
    exact ⟨rfl, rfl⟩

/-- The pivot of the second exchange is large enough, but not the one of the basis that it leads to.
The chain is due for a new factorization, with the basis itself forgotten or followed. -/
theorem perform_error_refused :
    let start : Workspace Extended := ⟨[Factorization.create .forrestTomlin 2 ⟨1 / 1000, 2⟩], #[]⟩
    let second : Call Extended := push 0 1 #[0, 2 / 1000]
    ∀ enabled, ∃ w, (do perform (toggle 0 enabled); perform (push 0 0 #[1, 10])) start = .ok () w ∧
      second.perform w = .error (.singular 1) w ∧ second.result w = .error (.singular 1) := by
  intro start second enabled
  have evaluated : (match (do perform (toggle 0 enabled); perform (push 0 0 #[1, 10])) start with
      | .error _ _ => none
      | .ok _ w => match second.perform w with
        | .error cause _ => some cause
        | .ok _ _ => none) = some (.singular 1) := by
    revert enabled
    decide +kernel
  split at evaluated
  · cases evaluated
  next w run =>
    split at evaluated
    next cause last failed =>
      obtain rfl := Option.some.inj evaluated
      obtain ⟨rfl, given⟩ := perform_error failed
      exact ⟨_, run, failed, given⟩
    · cases evaluated

end Call

end ReluSolver
