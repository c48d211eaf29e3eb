import ReluSolver.Proofs.FaultlessDeduction
import ReluSolver.Proofs.NumberOrder

/-! What a pass of the rules of a ReLU makes of the bounds of its input and its output.
What the bounds say about the phase is the same before, during and after the pass. -/

namespace ReluSolver

open Extended Deduction

theorem Deduction.observe_eq_ok {α β : Type} {f : Store α → Except Fault β} {value : β}
    {s last : Store α} : observe f s = .ok value last ↔ f s = .ok value ∧ s = last := by
  unfold observe
  cases f s with
  | ok other => simp
  | error cause => simp

theorem Store.interval_eq_ok {α : Type} [Scalar α] {s : Store α} {v : Variable} {i : Interval α} :
    s.interval v = .ok i ↔ ∃ c, s.cells[v]? = some c ∧ c.bounds = i := by
  cases found : s.cells[v]? with
  | none => simp [interval, lower, cell, found, bind, Except.bind]
  | some c => simp [interval_of_cell found]

namespace Cell

variable {c : Cell Extended} {t : Tightening Extended} (defined : c.bounds.Defined)
include defined

theorem put_bounds (improves : c.improves t.side t.value = true) :
    (c.put t.side t.value true).bounds = t.narrow c.bounds := by
  obtain ⟨side, var, value⟩ := t
  cases side with
  | lower =>
    have stricter : c.bounds.lower < value := of_decide_eq_true improves
    simp [Cell.put, Tightening.narrow, Scalar.max, isUndefined_eq_false defined.1, stricter]
  | upper =>
    have stricter : value < c.bounds.upper := of_decide_eq_true improves
    simp [Cell.put, Tightening.narrow, Scalar.min, isUndefined_eq_false defined.2, stricter]

theorem narrow_rests (rests : c.improves t.side t.value = false) :
    t.narrow c.bounds = c.bounds := by
  obtain ⟨side, var, value⟩ := t
  cases side with
  | lower =>
    have stays : ¬ c.bounds.lower < value := of_decide_eq_false rests
    simp [Tightening.narrow, Scalar.max, isUndefined_eq_false defined.1, stays]
  | upper =>
    have stays : ¬ value < c.bounds.upper := of_decide_eq_false rests
    simp [Tightening.narrow, Scalar.min, isUndefined_eq_false defined.2, stays]

end Cell

namespace Relu

variable {r : Relu} {b f : Interval Extended} {s : Store Extended} {t : Tolerance Extended}

/-- The store has these bounds for the input and the output. -/
structure Bounded (r : Relu) (b f : Interval Extended) (s : Store Extended) : Prop where
  input : s.interval r.b = .ok b
  output : s.interval r.f = .ok f

theorem phase_bounded {phase : Phase} (said : r.phase s t = .ok phase) :
    ∃ b f, r.Bounded b f s := by
  obtain ⟨b, input, said⟩ := bind_eq_ok.mp said
  obtain ⟨f, output, -⟩ := bind_eq_ok.mp said
  exact ⟨b, f, input, output⟩

namespace Bounded

theorem defined (bounded : r.Bounded b f s) (defined : Store.CellsDefined s.cells) :
    b.Defined ∧ f.Defined := by
  obtain ⟨c, found, rfl⟩ := Store.interval_eq_ok.mp bounded.input
  obtain ⟨c', found', rfl⟩ := Store.interval_eq_ok.mp bounded.output
  exact ⟨defined _ c found, defined _ c' found'⟩

theorem before {mid : Store Extended} (bounded : r.Bounded b f mid) (tightened : s.Tightened mid) :
    ∃ b f, r.Bounded b f s := by
  have known {v : Variable} {i} (held : mid.interval v = .ok i) : v < s.size := by
    obtain ⟨c, found, -⟩ := Store.interval_eq_ok.mp held
    rw [← tightened.size_eq]
    exact (Array.getElem?_eq_some_iff.mp found).1
  obtain ⟨b, input, -⟩ := Store.interval_total rfl (known bounded.input)
  obtain ⟨f, output, -⟩ := Store.interval_total rfl (known bounded.output)
  exact ⟨b, f, input, output⟩

variable (bounded : r.Bounded b f s)
include bounded

theorem phase_eq (t : Tolerance Extended) : r.phase s t = .ok (phaseWithin t b f) := by
  rw [phase, bounded.input, bounded.output]
  rfl

end Bounded

section Copies

variable {v : Variable} {i : Interval Extended} (held : s.interval v = .ok i)
include held

theorem ends_eq : s.lower v = .ok i.lower ∧ s.upper v = .ok i.upper := by
  obtain ⟨c, found, rfl⟩ := Store.interval_eq_ok.mp held
  simp [Store.lower, Store.upper, Store.cell, found, bind, Except.bind, pure, Except.pure]

theorem copyLower_eq (target : Variable) : copyLower v target s = .ok (.lower target i.lower) := by
  rw [copyLower, (ends_eq held).1]
  rfl

theorem copyUpper_eq (target : Variable) : copyUpper v target s = .ok (.upper target i.upper) := by
  rw [copyUpper, (ends_eq held).2]
  rfl

theorem cap_eq (target : Variable) :
    (do return .upper target (outputOf (← s.upper v)) : Except Fault _) =
      .ok (Tightening.upper target (outputOf i.upper)) := by
  rw [(ends_eq held).2]
  rfl

end Copies

theorem interval_place {v : Variable} {i : Interval Extended} {t : Tightening Extended}
    (held : s.interval v = .ok i) (defined : i.Defined) (known : t.var < s.cells.size) :
    (s.place t known).2.interval v = .ok (if t.var = v then t.narrow i else i) := by
  obtain ⟨c, found, rfl⟩ := Store.interval_eq_ok.mp held
  refine Store.interval_eq_ok.mpr ?_
  by_cases here : t.var = v
  · subst here
    obtain rfl : s.cells[t.var] = c := by simpa [Array.getElem?_eq_getElem known] using found
    rw [if_pos rfl]
    rcases Store.place_cases s t known with ⟨stays, placed⟩ | ⟨observer, improves, placed⟩
    · exact ⟨_, by rw [placed, found], (Cell.narrow_rests defined stays).symm⟩
    · exact ⟨_, by rw [placed]; simp, Cell.put_bounds defined improves⟩
  · rw [if_neg here]
    rcases Store.place_cases s t known with ⟨-, placed⟩ | ⟨observer, -, placed⟩
    · exact ⟨c, by rw [placed, found], rfl⟩
    · exact ⟨c, by rw [placed]; simp only; rw [Array.getElem?_set_ne known here, found], rfl⟩

section Rules

variable {side : Side} {value : Extended} {after : Store Extended → Prop}
  {rule : Store Extended → Except Fault (Tightening Extended)}
  {rules : List (Store Extended → Except Fault (Tightening Extended))}

theorem deriveEach_bounded {t : Tightening Extended} (defined : b.Defined ∧ f.Defined)
    (read : ∀ s, r.Bounded b f s → rule s = .ok t)
    (rest : Ends (r.Bounded (if t.var = r.b then t.narrow b else b)
        (if t.var = r.f then t.narrow f else f))
      (deriveEach rules) (fun _ => after) fun _ _ => True) :
    Ends (r.Bounded b f) (deriveEach (rule :: rules)) (fun _ => after) fun _ _ => True := by
  apply Ends.through fun given last => given = t ∧ r.Bounded b f last
  · intro s bounded
    simp only [observe, read s bounded]
    exact ⟨trivial, bounded⟩
  intro given
  refine Ends.through (fun _ => r.Bounded (if t.var = r.b then t.narrow b else b)
      (if t.var = r.f then t.narrow f else f)) ?_ fun _ =>
    rest.bind fun _ => .pure fun _ kept => kept
  rintro s ⟨rfl, bounded⟩
  by_cases known : given.var < s.cells.size
  · unfold derive
    rw [Store.tighten_known known]
    have placed := interval_place bounded.input defined.1 known
    have placed' := interval_place bounded.output defined.2 known
    cases outcome : (s.place given known).1 with
    | accepted | rejected => exact ⟨placed, placed'⟩
    | infeasible => trivial
  · obtain ⟨cause, run⟩ := Store.tighten_unknown known
    unfold derive
    rw [run]
    trivial

variable (distinct : r.b ≠ r.f) (defined : b.Defined ∧ f.Defined)
include distinct defined

theorem deriveEach_input (read : ∀ s, r.Bounded b f s → rule s = .ok ⟨side, r.b, value⟩)
    (rest : (Tightening.narrow b ⟨side, r.b, value⟩).Defined ∧ f.Defined →
      Ends (r.Bounded (Tightening.narrow b ⟨side, r.b, value⟩) f) (deriveEach rules)
        (fun _ => after) fun _ _ => True) :
    Ends (r.Bounded b f) (deriveEach (rule :: rules)) (fun _ => after) fun _ _ => True := by
  refine deriveEach_bounded defined read ?_
  rw [if_pos rfl, if_neg distinct]
  exact rest ⟨defined.1.narrow _, defined.2⟩

theorem deriveEach_output (read : ∀ s, r.Bounded b f s → rule s = .ok ⟨side, r.f, value⟩)
    (rest : b.Defined ∧ (Tightening.narrow f ⟨side, r.f, value⟩).Defined →
      Ends (r.Bounded b (Tightening.narrow f ⟨side, r.f, value⟩)) (deriveEach rules)
        (fun _ => after) fun _ _ => True) :
    Ends (r.Bounded b f) (deriveEach (rule :: rules)) (fun _ => after) fun _ _ => True := by
  refine deriveEach_bounded defined read ?_
  rw [if_neg distinct.symm, if_pos rfl]
  exact rest ⟨defined.1, defined.2.narrow _⟩

end Rules

/-- The bounds of the output after the rules that hold in any phase. -/
def commonOutput (b f : Interval Extended) : Interval Extended :=
  ⟨Scalar.max (Scalar.max f.lower 0) b.lower, Scalar.min f.upper (outputOf b.upper)⟩

def commonInput (b f : Interval Extended) : Interval Extended :=
  ⟨b.lower, Scalar.min b.upper (commonOutput b f).upper⟩

/-- The bounds of the input after the rules of a phase. -/
def phaseInput (b f : Interval Extended) : Phase → Interval Extended
  | .active =>
    ⟨Scalar.max (Scalar.max b.lower 0) f.lower, Scalar.min b.upper (Scalar.min f.upper b.upper)⟩
  | .inactive => ⟨b.lower, Scalar.min b.upper 0⟩
  | .unfixed => b

def phaseOutput (b f : Interval Extended) : Phase → Interval Extended
  | .active =>
    ⟨Scalar.max f.lower (Scalar.max (Scalar.max b.lower 0) f.lower), Scalar.min f.upper b.upper⟩
  | .inactive => ⟨f.lower, Scalar.min f.upper 0⟩
  | .unfixed => f

section Passes

variable (distinct : r.b ≠ r.f)
include distinct

theorem commonRules_bounded (defined : b.Defined ∧ f.Defined) :
    Ends (r.Bounded b f) (deriveEach r.commonRules)
      (fun _ => r.Bounded (commonInput b f) (commonOutput b f)) fun _ _ => True := by
  refine deriveEach_output distinct defined (fun _ _ => rfl) ?_
  intro defined
  refine deriveEach_output distinct defined (fun _ held => copyLower_eq held.input _) ?_
  intro defined
  refine deriveEach_output distinct defined (fun _ held => cap_eq held.input _) ?_
  intro defined
  refine deriveEach_input distinct defined (fun _ held => copyUpper_eq held.output _) fun _ => ?_
  exact .pure fun _ held => held

theorem phaseRules_bounded (defined : b.Defined ∧ f.Defined) (phase : Phase) :
    Ends (r.Bounded b f) (deriveEach (r.phaseRules phase))
      (fun _ => r.Bounded (phaseInput b f phase) (phaseOutput b f phase)) fun _ _ => True := by
  cases phase with
  | active =>
    refine deriveEach_input distinct defined (fun _ _ => rfl) ?_
    intro defined
    refine deriveEach_input distinct defined (fun _ held => copyLower_eq held.output _) ?_
    intro defined
    refine deriveEach_output distinct defined (fun _ held => copyLower_eq held.input _) ?_
    intro defined
    refine deriveEach_output distinct defined (fun _ held => copyUpper_eq held.input _) ?_
    intro defined
    refine deriveEach_input distinct defined (fun _ held => copyUpper_eq held.output _) fun _ => ?_
    exact .pure fun _ held => held
  | inactive =>
    refine deriveEach_output distinct defined (fun _ _ => rfl) fun defined => ?_
    refine deriveEach_input distinct defined (fun _ _ => rfl) fun _ => ?_
    exact .pure fun _ held => held
  | unfixed => exact .pure fun _ held => held

end Passes

section Phases

variable {epsilon : ℚ} (same : t.epsilon = finite epsilon) (positive : 0 ≤ epsilon)
  (defined : b.Defined ∧ f.Defined)
include same positive defined

theorem phaseWithin_eq : phaseWithin t b f =
    if (finite (-epsilon)).position ≤ b.lower.position ∨
        (finite epsilon).position < f.lower.position then .active
    else if b.upper.position ≤ (finite epsilon).position ∨
        f.upper.position ≤ (finite epsilon).position then .inactive
    else .unfixed := by
  simp only [phaseWithin, Bool.or_eq_true, t.ge_zero same positive, t.le_zero same positive,
    Tolerance.isPositive, same, decide_eq_true_eq]
  simp only [lt_iff_position (finite_defined _) defined.2.1,
    le_iff_position (finite_defined _) defined.1.1, le_iff_position defined.1.2 (finite_defined _),
    le_iff_position defined.2.2 (finite_defined _)]

omit same positive in
theorem common_defined : (commonInput b f).Defined ∧ (commonOutput b f).Defined :=
  ⟨⟨defined.1.1, min_defined defined.1.2⟩, max_defined (max_defined defined.2.1),
    min_defined defined.2.2⟩

theorem commonPhase_eq :
    phaseWithin t (commonInput b f) (commonOutput b f) = phaseWithin t b f := by
  obtain ⟨input, output⟩ := common_defined defined
  rw [phaseWithin_eq same positive ⟨input, output⟩, phaseWithin_eq same positive defined]
  have below : (finite (-epsilon)).position ≤ (0 : Extended).position :=
    zero_eq ▸ finite_le_position (neg_nonpos.mpr positive)
  have above : (0 : Extended).position ≤ (finite epsilon).position :=
    zero_eq ▸ finite_le_position positive
  simp only [commonInput, commonOutput, outputOf, position_max, position_min, max_defined,
    min_defined, defined.1.1, defined.1.2, defined.2.1, defined.2.2, zero_defined, ne_eq,
    not_false_eq_true]
  -- What is left compares maxima and minima of ends and zero with both ends of the tolerance.
  grind

omit same positive in
theorem phase_defined (phase : Phase) :
    (phaseInput b f phase).Defined ∧ (phaseOutput b f phase).Defined := by
  cases phase with
  | active =>
    exact ⟨⟨max_defined (max_defined defined.1.1), min_defined defined.1.2⟩,
      max_defined defined.2.1, min_defined defined.2.2⟩
  | inactive => exact ⟨⟨defined.1.1, min_defined defined.1.2⟩, defined.2.1, min_defined defined.2.2⟩
  | unfixed => exact defined

/-- The rules of the phase that the bounds say leave it as it is. -/
theorem phasePhase_eq {phase : Phase} (said : phaseWithin t b f = phase) :
    phaseWithin t (phaseInput b f phase) (phaseOutput b f phase) = phase := by
  obtain ⟨input, output⟩ := phase_defined defined phase
  have below : (finite (-epsilon)).position ≤ (0 : Extended).position :=
    zero_eq ▸ finite_le_position (neg_nonpos.mpr positive)
  have above : (0 : Extended).position ≤ (finite epsilon).position :=
    zero_eq ▸ finite_le_position positive
  rw [phaseWithin_eq same positive defined] at said
  rw [phaseWithin_eq same positive ⟨input, output⟩]
  cases phase with
  | active =>
    simp only [phaseInput, phaseOutput, position_max, position_min, max_defined, min_defined,
      defined.1.1, defined.1.2, defined.2.1, defined.2.2, zero_defined, ne_eq, not_false_eq_true]
    grind
  | inactive =>
    simp only [phaseInput, phaseOutput, position_min, defined.1.2, defined.2.2, zero_defined, ne_eq,
      not_false_eq_true]
    grind
  | unfixed => exact said

end Phases

end Relu

end ReluSolver
