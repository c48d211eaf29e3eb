import ReluSolver.Proofs.ReluPass

/-! One pass of the rules of a ReLU brings its bounds to rest: they are then tight, and a
pass over tight bounds finds nothing to do. -/

namespace ReluSolver

open Extended Deduction

namespace Store

variable {v : Variable} {i : Interval Extended} {value : Extended}

/-- A tightening that is no stricter than the bounds that it is about. -/
def Rests {α : Type} [Scalar α] (s : Store α) (t : Tightening α) : Prop :=
  ∃ c, s.cells[t.var]? = some c ∧ c.improves t.side t.value = false

theorem rests_lower {s : Store Extended} (held : s.interval v = .ok i) (reached : value ≤ i.lower) :
    s.Rests (.lower v value) := by
  obtain ⟨c, found, rfl⟩ := interval_eq_ok.mp held
  exact ⟨c, found, decide_eq_false (not_lt_of_le reached)⟩

theorem rests_upper {s : Store Extended} (held : s.interval v = .ok i) (reached : i.upper ≤ value) :
    s.Rests (.upper v value) := by
  obtain ⟨c, found, rfl⟩ := interval_eq_ok.mp held
  exact ⟨c, found, decide_eq_false (not_lt_of_le reached)⟩

end Store

namespace Deduction

variable {α : Type} [Scalar α] {s : Store α}

theorem derive_rests {t : Tightening α} (rests : s.Rests t) : derive t s = .ok false s := by
  obtain ⟨c, found, stays⟩ := rests
  obtain ⟨known, rfl⟩ := Array.getElem?_eq_some_iff.mp found
  rcases Store.place_cases s t known with ⟨-, placed⟩ | ⟨_, improves, -⟩
  · simp only [derive, Store.tighten_known known, placed]
    rfl
  · exact absurd (stays.symm.trans improves) Bool.false_ne_true

theorem deriveEach_rests {rules : List (Store α → Except Fault (Tightening α))}
    (rest : ∀ rule ∈ rules, ∃ t, rule s = .ok t ∧ s.Rests t) : deriveEach rules s = .ok 0 s := by
  induction rules with
  | nil => rfl
  | cons rule others ih =>
    obtain ⟨t, read, rests⟩ := rest rule (by simp)
    have here : observe rule s = .ok t s := by simp only [observe, read]
    have later := ih fun other member => rest other (by simp [member])
    exact run_bind_eq_ok.mpr ⟨t, s, here, run_bind_eq_ok.mpr ⟨false, s, derive_rests rests,
      run_bind_eq_ok.mpr ⟨0, s, later, rfl⟩⟩⟩

end Deduction

namespace Relu

variable {r : Relu} {b f : Interval Extended} {s : Store Extended} {t : Tolerance Extended}

/-- No rule of a ReLU in this phase reads anything stricter off the bounds. -/
structure Tight (phase : Phase) (b f : Interval Extended) : Prop where
  nonneg : 0 ≤ f.lower
  lower : b.lower ≤ f.lower
  capped : f.upper ≤ outputOf b.upper
  upper : b.upper ≤ f.upper
  active : phase = .active → 0 ≤ b.lower ∧ f.lower ≤ b.lower ∧ f.upper ≤ b.upper
  inactive : phase = .inactive → f.upper ≤ 0 ∧ b.upper ≤ 0

theorem tight_iff_position (defined : b.Defined ∧ f.Defined) (phase : Phase) :
    Tight phase b f ↔
      (position 0 ≤ f.lower.position ∧ b.lower.position ≤ f.lower.position ∧
        f.upper.position ≤ max b.upper.position (position 0) ∧
        b.upper.position ≤ f.upper.position) ∧
      (phase = .active → position 0 ≤ b.lower.position ∧ f.lower.position ≤ b.lower.position ∧
        f.upper.position ≤ b.upper.position) ∧
      (phase = .inactive → f.upper.position ≤ position 0 ∧ b.upper.position ≤ position 0) := by
  rw [← position_max defined.1.2 zero_defined, ← le_iff_position zero_defined defined.2.1,
    ← le_iff_position defined.1.1 defined.2.1, ← le_iff_position defined.1.2 defined.2.2,
    ← le_iff_position zero_defined defined.1.1, ← le_iff_position defined.2.1 defined.1.1,
    ← le_iff_position defined.2.2 defined.1.2, ← le_iff_position defined.2.2 zero_defined,
    ← le_iff_position defined.1.2 zero_defined,
    ← le_iff_position defined.2.2 (max_defined defined.1.2)]
  constructor
  · rintro ⟨nonneg, lower, capped, upper, active, inactive⟩
    exact ⟨⟨nonneg, lower, capped, upper⟩, active, inactive⟩
  · rintro ⟨⟨nonneg, lower, capped, upper⟩, active, inactive⟩
    exact ⟨nonneg, lower, capped, upper, active, inactive⟩

/-- The rules that hold in any phase leave nothing for one another to do. -/
theorem common_tight (defined : b.Defined ∧ f.Defined) :
    Tight .unfixed (commonInput b f) (commonOutput b f) := by
  rw [tight_iff_position (common_defined defined)]
  simp only [commonInput, commonOutput, outputOf, position_max, position_min, max_defined,
    min_defined, defined.1.1, defined.1.2, defined.2.1, defined.2.2, zero_defined, ne_eq,
    not_false_eq_true]
  grind

theorem phase_tight (defined : b.Defined ∧ f.Defined) (tight : Tight .unfixed b f) (phase : Phase) :
    Tight phase (phaseInput b f phase) (phaseOutput b f phase) := by
  have raised : Scalar.max (Scalar.max b.lower 0) f.lower ≠ undefined :=
    max_defined (max_defined defined.1.1)
  rw [tight_iff_position defined] at tight
  rw [tight_iff_position (phase_defined defined phase)]
  cases phase <;>
    simp only [phaseInput, phaseOutput, position_max, position_min, max_defined, min_defined,
      raised, defined.1.1, defined.1.2, defined.2.1, defined.2.2, zero_defined, ne_eq,
      not_false_eq_true] <;>
    grind

section Coincidence

variable (coincide : r.f = r.b) (defined : b.Defined)
include coincide defined

theorem deriveEach_both {side : Side} {value : Extended} {after : Store Extended → Prop}
    {rule : Store Extended → Except Fault (Tightening Extended)}
    {rules : List (Store Extended → Except Fault (Tightening Extended))}
    (read : ∀ s, r.Bounded b b s → rule s = .ok ⟨side, r.f, value⟩)
    (rest : (Tightening.narrow b ⟨side, r.f, value⟩).Defined →
      Ends (r.Bounded (Tightening.narrow b ⟨side, r.f, value⟩)
          (Tightening.narrow b ⟨side, r.f, value⟩))
        (deriveEach rules) (fun _ => after) fun _ _ => True) :
    Ends (r.Bounded b b) (deriveEach (rule :: rules)) (fun _ => after) fun _ _ => True := by
  refine deriveEach_bounded ⟨defined, defined⟩ read ?_
  rw [if_pos coincide, if_pos rfl]
  exact rest (defined.narrow _)

theorem commonRules_coincident :
    Ends (r.Bounded b b) (deriveEach r.commonRules)
      (fun _ mid => ∃ i, r.Bounded i i mid ∧ i.Defined ∧ Tight .active i i) fun _ _ => True := by
  have nonneg := max_defined (y := 0) defined.1
  refine deriveEach_both coincide defined (fun _ _ => rfl) fun first => ?_
  refine deriveEach_both coincide first (fun _ held => copyLower_eq held.input _) fun second => ?_
  refine deriveEach_both coincide second (fun _ held => cap_eq held.input _) fun third => ?_
  refine deriveEach_both coincide third
    (fun _ held => by rw [copyUpper_eq held.output, coincide]; rfl) fun fourth => ?_
  refine .pure fun mid held => ⟨_, held, fourth, ?_⟩
  rw [tight_iff_position ⟨fourth, fourth⟩]
  simp only [Tightening.narrow, outputOf, position_max, position_min, max_defined, min_defined,
    nonneg, defined.1, defined.2, zero_defined, ne_eq, not_false_eq_true]
  grind

end Coincidence

section Rest

variable (bounded : r.Bounded b f s)
include bounded

theorem commonRules_rest {phase : Phase} (tight : Tight phase b f) :
    deriveEach r.commonRules s = .ok 0 s := by
  apply deriveEach_rests
  simp only [commonRules, List.forall_mem_cons]
  exact ⟨⟨_, rfl, Store.rests_lower bounded.output tight.nonneg⟩,
    ⟨_, copyLower_eq bounded.input _, Store.rests_lower bounded.output tight.lower⟩,
    ⟨_, cap_eq bounded.input _, Store.rests_upper bounded.output tight.capped⟩,
    ⟨_, copyUpper_eq bounded.output _, Store.rests_upper bounded.input tight.upper⟩,
    List.forall_mem_nil _⟩

theorem phaseRules_rest {phase : Phase} (tight : Tight phase b f) :
    deriveEach (r.phaseRules phase) s = .ok 0 s := by
  apply deriveEach_rests
  cases phase with
  | active =>
    obtain ⟨nonneg, lower, upper⟩ := tight.active rfl
    simp only [phaseRules, List.forall_mem_cons]
    exact ⟨⟨_, rfl, Store.rests_lower bounded.input nonneg⟩,
      ⟨_, copyLower_eq bounded.output _, Store.rests_lower bounded.input lower⟩,
      ⟨_, copyLower_eq bounded.input _, Store.rests_lower bounded.output tight.lower⟩,
      ⟨_, copyUpper_eq bounded.input _, Store.rests_upper bounded.output upper⟩,
      ⟨_, copyUpper_eq bounded.output _, Store.rests_upper bounded.input tight.upper⟩,
      List.forall_mem_nil _⟩
  | inactive =>
    obtain ⟨output, input⟩ := tight.inactive rfl
    simp only [phaseRules, List.forall_mem_cons]
    exact ⟨⟨_, rfl, Store.rests_upper bounded.output output⟩,
      ⟨_, rfl, Store.rests_upper bounded.input input⟩, List.forall_mem_nil _⟩
  | unfixed => exact List.forall_mem_nil _

theorem propagate_rests (tight : Tight (phaseWithin t b f) b f) : r.propagate t s = .ok 0 s := by
  have seen : observe (r.phase · t) s = .ok (phaseWithin t b f) s := by
    simp only [observe, bounded.phase_eq]
  exact run_bind_eq_ok.mpr ⟨0, s, commonRules_rest bounded tight, run_bind_eq_ok.mpr
    ⟨_, s, seen, run_bind_eq_ok.mpr ⟨0, s, phaseRules_rest bounded tight, rfl⟩⟩⟩

end Rest

/-- The bounds of the ReLU are tight for the phase that they say. -/
def AtRest (r : Relu) (t : Tolerance Extended) (phase : Phase) (s : Store Extended) : Prop :=
  ∃ b f, r.Bounded b f s ∧ Tight phase b f ∧ phaseWithin t b f = phase

section Fixpoint

variable {epsilon : ℚ} (same : t.epsilon = finite epsilon) (positive : 0 ≤ epsilon)
include same positive

theorem Tight.phase_active (tight : Tight .active b f) (defined : b.Defined ∧ f.Defined) :
    phaseWithin t b f = .active := by
  rw [phaseWithin_eq same positive defined]
  have below : (finite (-epsilon)).position ≤ (0 : Extended).position :=
    zero_eq ▸ finite_le_position (neg_nonpos.mpr positive)
  have nonneg := (le_iff_position zero_defined defined.1.1).mp (tight.active rfl).1
  exact if_pos (.inl (below.trans nonneg))

/-- After the rules that hold in any phase, those of the phase that is seen then bring
the bounds to rest in it. -/
theorem commonRules_settle (bounded : r.Bounded b f s) (defined : b.Defined ∧ f.Defined) :
    Ends (· = s) (deriveEach r.commonRules) (fun _ mid => ∃ phase, r.phase mid t = .ok phase ∧
      (r.b ≠ r.f → r.phase s t = .ok phase) ∧
      Ends (· = mid) (deriveEach (r.phaseRules phase)) (fun _ => r.AtRest t phase) fun _ _ => True)
      fun _ _ => True := by
  by_cases coincide : r.f = r.b
  -- The first rule makes the one variable nonnegative, so the phase after it is the active one.
  · obtain rfl : b = f := Except.ok.inj ((coincide ▸ bounded.input).symm.trans bounded.output)
    refine ((commonRules_coincident coincide defined.1).here bounded).mono ?_
    rintro - mid ⟨i, held, inner, tight⟩
    have active := tight.phase_active same positive ⟨inner, inner⟩
    refine ⟨.active, active ▸ held.phase_eq t, fun distinct => absurd coincide.symm distinct, ?_⟩
    rintro _ rfl
    rw [phaseRules_rest held tight]
    exact ⟨i, i, held, tight, active⟩
  -- Neither kind of rules changes the phase, and the latter start from tight bounds.
  · refine ((commonRules_bounded (Ne.symm coincide) defined).here bounded).mono fun _ mid held => ?_
    have common := common_defined defined
    have kept := commonPhase_eq same positive defined
    refine ⟨phaseWithin t b f, kept ▸ held.phase_eq t, fun _ => bounded.phase_eq t, ?_⟩
    refine ((phaseRules_bounded (Ne.symm coincide) common _).here held).mono fun _ last held => ?_
    exact ⟨_, _, held, phase_tight common (common_tight defined) _,
      phasePhase_eq same positive common kept⟩

/-- One pass is enough. Another one finds the store as it leaves it, and neither the
rules that hold in any phase nor those of the phase that is seen after them change what is
seen of the phase. -/
theorem propagate_fixpoint (defined : Store.CellsDefined s.cells) {news : Nat}
    {last : Store Extended} (run : r.propagate t s = .ok news last) :
    ∃ phase, (r.b ≠ r.f → r.phase s t = .ok phase) ∧
      (∀ common mid, deriveEach r.commonRules s = .ok common mid → r.phase mid t = .ok phase) ∧
      r.phase last t = .ok phase ∧ r.propagate t last = .ok 0 last := by
  obtain ⟨common, mid, began, run⟩ := run_bind_eq_ok.mp run
  obtain ⟨seen, mid', observed, run⟩ := run_bind_eq_ok.mp run
  obtain ⟨later, last', ended, done⟩ := run_bind_eq_ok.mp run
  obtain ⟨-, rfl⟩ := EStateM.Result.ok.inj done
  obtain ⟨said, rfl⟩ := observe_eq_ok.mp observed
  obtain ⟨b', f', held⟩ := phase_bounded said
  obtain ⟨b, f, bounded⟩ := held.before ((deriveEach_tightened s _).ok .refl began)
  have settle := commonRules_settle same positive bounded (bounded.defined defined)
  obtain ⟨phase, again, first, rest⟩ := settle.ok rfl began
  obtain rfl := Except.ok.inj (said.symm.trans again)
  obtain ⟨b', f', held, tight, shown⟩ := rest.ok rfl ended
  refine ⟨seen, first, ?_, shown ▸ held.phase_eq t, propagate_rests held (shown ▸ tight)⟩
  intro common' mid' run
  obtain ⟨-, rfl⟩ := EStateM.Result.ok.inj (began.symm.trans run)
  exact said

end Fixpoint

/-- An input that is nonnegative up to the tolerance is taken to be active. -/
theorem propagate_fixpoint_nearly_active :
    let r : Relu := ⟨0, 1⟩
    let t : Tolerance Extended := ⟨finite (1 / 2)⟩
    let s : Store Extended :=
      ⟨#[⟨⟨finite (-1 / 4), 3⟩, false, false⟩, Cell.unbounded], .empty, .absent, t⟩
    t.epsilon = finite (1 / 2) ∧ (0 : ℚ) ≤ 1 / 2 ∧ Store.CellsDefined s.cells ∧
      ∃ news last, r.propagate t s = .ok news last ∧
        ∃ phase, (r.b ≠ r.f → r.phase s t = .ok phase) ∧
          (∀ common mid, deriveEach r.commonRules s = .ok common mid → r.phase mid t = .ok phase) ∧
          r.phase last t = .ok phase ∧ r.propagate t last = .ok 0 last := by
  intro r t s
  have positive : (0 : ℚ) ≤ 1 / 2 := by norm_num
  have defined : Store.CellsDefined s.cells := by
    intro v c found
    obtain rfl | rfl : c = ⟨⟨finite (-1 / 4), 3⟩, false, false⟩ ∨ c = Cell.unbounded := by
      simpa [s] using Array.mem_of_getElem? found
    · exact ⟨finite_defined _, by simp⟩
    · exact Interval.all_defined
  have succeeds : ((r.propagate t).run' s).isSome = true := by decide +kernel
  cases run : r.propagate t s with
  | ok news last =>
    exact ⟨rfl, positive, defined, news, last, rfl, propagate_fixpoint rfl positive defined run⟩
  | error =>
    delta EStateM.run' EStateM.run at succeeds
    rw [run] at succeeds
    cases succeeds

end Relu

end ReluSolver
