import ReluSolver.Proofs.FaultlessDeduction
import ReluSolver.Proofs.PresolveCorrespondence

/-! Simplifying a query succeeds, or finds that it has no solution. The rounds end,
since every round but the last one leaves less to reduce, and every variable that the
reduced query mentions has a number in it. -/

namespace ReluSolver.Presolve

variable {α : Type} [Scalar α] {q : Query α} {t : Tolerance α} {d start : Draft α} {cause : Setback}

theorem Reduces.sized (sized : start.store.size = q.size) (reduces : Reduces q t start d) :
    d.store.size = q.size := by
  induction reduces with
  | refl => exact sized
  | tighten _ tightened ih => exact tightened.size_eq.trans ih
  | fix _ _ ih => exact ih
  | @merge d _ _ _ _ _ _ _ _ tightened _ ih =>
    exact ((Store.tightenAll_tightened d.store _).ok .refl tightened).size_eq.trans ih
  | drop _ _ ih => exact ih

theorem mergePair_conflict (orderly : d.Orderly q) (sized : d.store.size = q.size)
    (run : mergePair q t d = .error cause) : cause = .conflict := by
  unfold mergePair at run
  split at run
  · cases run
  next source target found =>
    obtain ⟨-, keptSource, keptTarget, -⟩ := orderly.pair found
    have knownSource : source < q.size := orderly.size ▸ VariableMap.known_of_isKept keptSource
    have knownTarget : target < q.size := orderly.size ▸ VariableMap.known_of_isKept keptTarget
    obtain ⟨held, interval, -⟩ := d.store.interval_total sized knownSource
    rw [interval] at run
    rcases bind_eq_error.mp run with failed | ⟨bounds, -, run⟩
    · cases failed
    · obtain ⟨outcome, s, tightened, -⟩ := (Store.tightenBounds_total knownTarget bounds).run sized
      split at run
      next failed => cases tightened.symm.trans failed
      next => exact (Except.error.inj run).symm
      next => cases run

theorem dropEmpty_conflict (run : dropEmpty t d = .error cause) : cause = .conflict := by
  unfold dropEmpty at run
  split at run
  · exact (Except.error.inj run).symm
  · cases run

theorem Draft.Orderly.propagate_conflict (orderly : d.Orderly q) (sized : d.store.size = q.size)
    {effort : Effort α} {s : Store α}
    (run : effort.propagate d.equations [] q.relus d.store = .error cause s) : cause = .conflict := by
  have stated : ∀ e ∈ d.equations, ∀ a ∈ e.addends, a.var < q.size := fun e member a inside =>
    orderly.size ▸ VariableMap.known_of_isKept
      (orderly.kept e member a.var (List.mem_map.mpr ⟨a, inside, rfl⟩))
  have ends := effort.propagate_faultless stated (List.forall_mem_nil _) q.relus_known d.store sized
  rwa [run] at ends

/-- As long as a round reduces something less is left, so no round is missing in the end. -/
theorem rounds_conflict {effort : Effort α} {fuel : Nat} (enough : remaining d < fuel)
    (orderly : d.Orderly q) (sized : d.store.size = q.size)
    (run : rounds q effort fuel d = .error cause) : cause = .conflict := by
  induction fuel generalizing d with
  | zero => omega
  | succ fuel ih =>
    cases propagated : effort.propagate d.equations [] q.relus d.store with
    | error stuck s =>
      rw [rounds_stuck propagated] at run
      exact (Except.error.inj run).symm.trans (orderly.propagate_conflict sized propagated)
    | ok news s =>
      have tightened := (effort.propagate_tightened d.store d.equations [] q.relus).ok .refl propagated
      have reached := ((Reduces.refl (q := q) (t := effort.tolerance)).tighten tightened).fixVariables
      rw [rounds_propagated propagated] at run
      rcases bind_eq_error.mp run with failed | ⟨merged, merges, run⟩
      · exact mergePair_conflict (reached.orderly orderly) (reached.sized sized) failed
      rcases bind_eq_error.mp run with failed | ⟨next, drops, run⟩
      · exact dropEmpty_conflict failed
      have reached := (reached.mergePair merges).dropEmpty drops
      split at run
      next less => exact ih (by omega) (reached.orderly orderly) (reached.sized sized) run
      next => cases run

theorem Entered.storeWithin {s : Store α} (entered : Entered q t s) :
    ∃ outcome, q.storeWithin .empty t = .ok (outcome, s) ∧ outcome.isInfeasible = false := by
  obtain ⟨empty, outcome, initialized, run, feasible⟩ := entered.run
  have merged : ∃ outcome, q.enter .empty empty = .ok outcome s ∧ outcome.isInfeasible = false := by
    cases outcome with
    | infeasible => exact absurd rfl feasible
    | accepted | rejected => exact ⟨_, run_bind_eq_ok.mpr ⟨_, _, run, rfl⟩, rfl⟩
  obtain ⟨outcome, run, feasible⟩ := merged
  refine ⟨outcome, ?_, feasible⟩
  rw [Query.storeWithin, initialized]
  simp only [bind, Except.bind, run]
  rfl

theorem entered_or_conflict (q : Query α) (effort : Effort α) :
    (¬ ∃ s, Entered q effort.tolerance s) ∧ simplify q effort = .error .conflict ∨
    ∃ s, Entered q effort.tolerance s ∧ s.size = q.size ∧
      simplify q effort = (do
        let start : Draft α := ⟨s, q.equations, .identity q.size⟩
        let d ← rounds q effort (remaining start + 1) start
        let simplified ← (rebuild q d).mapError Setback.fault
        return (simplified, d.map)) := by
  have known : ∀ t ∈ (CaseSplit.empty : CaseSplit α).tightenings, t.var < q.size := by
    simp [CaseSplit.empty]
  obtain ⟨outcome, s, within, sized⟩ := q.storeWithin_total known effort.tolerance
  unfold simplify
  rw [within]
  cases infeasible : outcome.isInfeasible with
  | true =>
    refine .inl ⟨?_, ?_⟩
    · rintro ⟨s', entered⟩
      obtain ⟨other, within', feasible⟩ := entered.storeWithin
      obtain ⟨rfl, -⟩ := Prod.mk.inj (Except.ok.inj (within.symm.trans within'))
      cases infeasible.symm.trans feasible
    · simp only [Except.mapError, bind, Except.bind, infeasible, if_true]
      rfl
  | false =>
    refine .inr ⟨s, storeWithin_empty within infeasible, sized, ?_⟩
    simp only [Except.mapError, bind, Except.bind, infeasible, Bool.false_eq_true, if_false]

/-- A query whose simplification does not succeed is refused. -/
theorem simplify_conflict {effort : Effort α} (distinct : ∀ e ∈ q.equations, e.vars.Nodup)
    (relus : ∀ r ∈ q.relus, r.b ≠ r.f) (run : simplify q effort = .error cause) :
    cause = .conflict := by
  rcases entered_or_conflict q effort with ⟨-, refused⟩ | ⟨s, -, sized, stages⟩
  · exact (Except.error.inj (refused.symm.trans run)).symm
  · rw [stages] at run
    have orderly := Draft.orderly_start (s := s) distinct
    rcases bind_eq_error.mp run with failed | ⟨d, reduced, run⟩
    · exact rounds_conflict (Nat.lt_succ_self _) orderly sized failed
    have reached := rounds_reduces .refl reduced
    obtain ⟨simplified, built⟩ :=
      (reached.orderly orderly).rebuild_total (reached.sized sized) relus
    rw [built] at run
    cases run

end ReluSolver.Presolve
