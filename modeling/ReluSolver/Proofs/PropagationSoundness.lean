import ReluSolver.Proofs.RowSoundness
import ReluSolver.Deduction.Propagation

/-! Where numbers are compared as they are, propagation keeps every assignment that
satisfies the equations and the ReLUs. A conflict therefore shows that there is none. -/

namespace ReluSolver

open Extended Deduction

namespace Deduction

variable {size : Nat} {x : Variable → ℚ}

/-- Each rule reads off a tightening that an enclosed assignment respects. -/
def RulesHold (size : Nat) (x : Variable → ℚ)
    (rules : List (Store Extended → Except Fault (Tightening Extended))) : Prop :=
  ∀ rule ∈ rules, ∀ s : Store Extended, s.Encloses size x →
    ∃ t, rule s = .ok t ∧ t.Holds x ∧ t.var < size

theorem deriveEach_encloses {rules : List (Store Extended → Except Fault (Tightening Extended))}
    (hold : RulesHold size x rules) :
    Returns (Store.Encloses size x) (deriveEach rules) fun _ last => last.Encloses size x := by
  induction rules with
  | nil => exact .pure fun _ kept => kept
  | cons rule rest ih =>
    have first : Returns (Store.Encloses size x) (observe rule)
        fun t last => (t.Holds x ∧ t.var < size) ∧ last.Encloses size x := by
      intro s encloses
      obtain ⟨t, read, holds, known⟩ := hold rule (by simp) s encloses
      simp only [observe, read]
      exact ⟨⟨holds, known⟩, encloses⟩
    apply first.bind
    intro t
    apply Ends.through fun _ last => last.Encloses size x
    · apply Ends.from_state
      rintro s ⟨⟨holds, known⟩, encloses⟩
      exact (Effort.derive_encloses holds known encloses).mono fun _ _ kept => kept.1
    · intro _
      exact (ih fun later member => hold later (by simp [member])).bind
        fun _ => .pure fun _ kept => kept

theorem deriveEach_tightened {α : Type} [Scalar α] (start : Store α)
    (rules : List (Store α → Except Fault (Tightening α))) :
    Preserves (Store.Tightened start) (deriveEach rules) := by
  induction rules with
  | nil => exact .pure fun _ kept => kept
  | cons rule rest ih =>
    apply Ends.bind (Effort.observe_tightened start rule)
    intro t
    apply Ends.bind (Effort.derive_tightened start t)
    intro _
    exact ih.bind fun _ => .pure fun _ kept => kept

end Deduction

namespace Store

variable {size : Nat} {x : Variable → ℚ} {s : Store Extended}

theorem Encloses.interval_eq (encloses : s.Encloses size x) {v : Nat} (known : v < size) :
    ∃ bounds, s.interval v = .ok bounds ∧ s.lower v = .ok bounds.lower ∧
      s.upper v = .ok bounds.upper ∧ bounds.Contains (x v) := by
  have cell := Array.getElem?_eq_getElem (show v < s.cells.size from encloses.size_eq ▸ known)
  refine ⟨_, interval_of_cell cell, ?_, ?_, encloses.admits v _ cell⟩
  · simp [lower, Store.cell, cell, bind, Except.bind, pure, Except.pure]
  · simp [upper, Store.cell, cell, bind, Except.bind, pure, Except.pure]

theorem initialize_eq_ok {α : Type} [Scalar α] {t : Tolerance α} {size : Nat} {s : Store α}
    (run : (Store.new t).initialize? size = .ok s) :
    s = { Store.new t with cells := Array.replicate size Cell.unbounded } :=
  (Except.ok.inj run).symm

theorem initialize_encloses {t : Tolerance Extended} (nonnegative : 0 ≤ t.epsilon)
    (run : (Store.new t).initialize? size = .ok s) : s.Encloses size x := by
  obtain rfl := initialize_eq_ok run
  refine ⟨by simp, nonnegative, ?_⟩
  intro v c found
  obtain ⟨-, rfl⟩ : v < size ∧ Cell.unbounded = c := by simpa [Array.getElem?_replicate] using found
  exact Interval.all_contains _

end Store

namespace Relu

variable {r : Relu} {size : Nat} {x : Variable → ℚ}

theorem Holds.nonneg (holds : r.Holds x) : 0 ≤ x r.f := by
  rw [show x r.f = _ from holds]
  exact le_max_right _ _

theorem Holds.input_le (holds : r.Holds x) : x r.b ≤ x r.f := by
  rw [show x r.f = _ from holds]
  exact le_max_left _ _

theorem Holds.eq_input (holds : r.Holds x) (active : 0 ≤ x r.b) : x r.f = x r.b :=
  (show x r.f = _ from holds).trans (max_eq_left active)

theorem Holds.eq_zero (holds : r.Holds x) (inactive : x r.b ≤ 0) : x r.f = 0 :=
  (show x r.f = _ from holds).trans (max_eq_right inactive)

/-- The assignment is on the side of zero that a phase says. -/
def OnSide (r : Relu) (x : Variable → ℚ) : Phase → Prop
  | .active => 0 ≤ x r.b
  | .inactive => x r.b ≤ 0
  | .unfixed => True

theorem onSide_of_phaseWithin {t : Tolerance Extended} (precise : t.epsilon = 0) (holds : r.Holds x)
    {b f : Interval Extended} (input : b.Contains (x r.b)) (output : f.Contains (x r.f)) :
    r.OnSide x (phaseWithin t b f) := by
  have same : t.epsilon = finite 0 := by simpa using precise
  have lower : ∀ {i : Interval Extended} {value : ℚ}, i.Contains value →
      t.ge i.lower 0 = true → 0 ≤ value := by
    intro i value inside above
    rcases le_finite_cases inside.lower with shape | ⟨l, shape, below⟩ <;> rw [shape] at above
    · simp [Tolerance.ge, same] at above
      rcases above with above | above <;> cases above
    · rw [zero_eq, Tolerance.ge_finite same le_rfl] at above
      linarith
  have upper : ∀ {i : Interval Extended} {value : ℚ}, i.Contains value →
      t.le i.upper 0 = true → value ≤ 0 := by
    intro i value inside below
    rcases finite_le_cases inside.upper with shape | ⟨u, shape, above⟩ <;> rw [shape] at below
    · simp [Tolerance.le, Tolerance.ge, same] at below
      rcases below with below | below <;> cases below
    · rw [zero_eq, Tolerance.le, Tolerance.ge_finite same le_rfl] at below
      linarith
  unfold phaseWithin
  split
  next active =>
    rcases Bool.or_eq_true _ _ ▸ active with above | positive
    · exact lower input above
    · rcases le_finite_cases output.lower with shape | ⟨l, shape, below⟩ <;> rw [shape] at positive
      · simp [Tolerance.isPositive, same] at positive
        cases positive
      · rw [Tolerance.isPositive_finite same] at positive
        have positive_output : 0 < x r.f := by linarith
        by_contra negative
        rw [holds.eq_zero (le_of_not_ge negative)] at positive_output
        exact absurd positive_output (lt_irrefl 0)
  next =>
    split
    next inactive =>
      rcases Bool.or_eq_true _ _ ▸ inactive with below | below
      · exact upper input below
      · exact holds.input_le.trans (upper output below)
    next => trivial

theorem commonRules_hold (holds : r.Holds x) (input : r.b < size) (output : r.f < size) :
    RulesHold size x r.commonRules := by
  intro rule member s encloses
  obtain ⟨b, -, lowerB, upperB, insideB⟩ := encloses.interval_eq input
  obtain ⟨f, -, -, upperF, insideF⟩ := encloses.interval_eq output
  simp only [commonRules, List.mem_cons, List.not_mem_nil, or_false] at member
  rcases member with rfl | rfl | rfl | rfl
  · exact ⟨.lower r.f 0, rfl, by rw [zero_eq]; exact le_finite.mpr holds.nonneg, output⟩
  · refine ⟨.lower r.f b.lower, by rw [copyLower, lowerB]; rfl, ?_, output⟩
    exact Extended.le_trans insideB.lower (le_finite.mpr holds.input_le)
  · refine ⟨.upper r.f (outputOf b.upper), by simp [upperB, bind, Except.bind]; rfl, ?_, output⟩
    change finite (x r.f) ≤ outputOf b.upper
    rw [show x r.f = _ from holds]
    rcases finite_le_cases insideB.upper with shape | ⟨u, shape, above⟩ <;> rw [shape]
    · rfl
    · simpa [outputOf] using max_le_max_right 0 above
  · refine ⟨.upper r.b f.upper, by rw [copyUpper, upperF]; rfl, ?_, input⟩
    exact Extended.le_trans (le_finite.mpr holds.input_le) insideF.upper

theorem phaseRules_hold (holds : r.Holds x) (input : r.b < size) (output : r.f < size) {phase : Phase}
    (side : r.OnSide x phase) : RulesHold size x (r.phaseRules phase) := by
  intro rule member s encloses
  obtain ⟨b, -, lowerB, upperB, insideB⟩ := encloses.interval_eq input
  obtain ⟨f, -, lowerF, upperF, insideF⟩ := encloses.interval_eq output
  cases phase with
  | active =>
    have same := holds.eq_input side
    simp only [phaseRules, List.mem_cons, List.not_mem_nil, or_false] at member
    rcases member with rfl | rfl | rfl | rfl | rfl
    · exact ⟨.lower r.b 0, rfl, by rw [zero_eq]; exact le_finite.mpr side, input⟩
    · refine ⟨.lower r.b f.lower, by rw [copyLower, lowerF]; rfl, ?_, input⟩
      change f.lower ≤ finite (x r.b)
      exact same ▸ insideF.lower
    · refine ⟨.lower r.f b.lower, by rw [copyLower, lowerB]; rfl, ?_, output⟩
      change b.lower ≤ finite (x r.f)
      exact same ▸ insideB.lower
    · refine ⟨.upper r.f b.upper, by rw [copyUpper, upperB]; rfl, ?_, output⟩
      change finite (x r.f) ≤ b.upper
      exact same ▸ insideB.upper
    · refine ⟨.upper r.b f.upper, by rw [copyUpper, upperF]; rfl, ?_, input⟩
      change finite (x r.b) ≤ f.upper
      exact same ▸ insideF.upper
  | inactive =>
    have zero := holds.eq_zero side
    simp only [phaseRules, List.mem_cons, List.not_mem_nil, or_false] at member
    rcases member with rfl | rfl
    · exact ⟨.upper r.f 0, rfl, by rw [zero_eq]; exact le_finite.mpr zero.le, output⟩
    · exact ⟨.upper r.b 0, rfl, by rw [zero_eq]; exact le_finite.mpr side, input⟩
  | unfixed => cases member

theorem propagate_encloses {t : Tolerance Extended} (precise : t.epsilon = 0) (holds : r.Holds x)
    (input : r.b < size) (output : r.f < size) :
    Returns (Store.Encloses size x) (r.propagate t) fun _ last => last.Encloses size x := by
  apply Ends.bind (deriveEach_encloses (commonRules_hold holds input output))
  intro common
  apply Ends.through fun phase last => r.OnSide x phase ∧ last.Encloses size x
  · intro s encloses
    obtain ⟨b, intervalB, -, -, insideB⟩ := encloses.interval_eq input
    obtain ⟨f, intervalF, -, -, insideF⟩ := encloses.interval_eq output
    simp only [observe, phase, intervalB, intervalF]
    exact ⟨onSide_of_phaseWithin precise holds insideB insideF, encloses⟩
  · intro phase
    apply Ends.from_state
    rintro s ⟨side, encloses⟩
    apply Ends.bind
    · exact (deriveEach_encloses (phaseRules_hold holds input output side)).weaken
        (fun _ same => same ▸ encloses) (fun _ _ kept => kept) fun _ _ failed => failed
    · exact fun _ => .pure fun _ kept => kept

theorem propagateAll_encloses {t : Tolerance Extended} (precise : t.epsilon = 0) {relus : List Relu}
    (hold : ∀ r ∈ relus, r.Holds x) (known : ∀ r ∈ relus, r.b < size ∧ r.f < size) :
    Returns (Store.Encloses size x) (propagateAll t relus) fun _ last => last.Encloses size x := by
  induction relus with
  | nil => exact .pure fun _ kept => kept
  | cons r rest ih =>
    have inside := known r (by simp)
    apply Ends.bind (propagate_encloses precise (hold r (by simp)) inside.1 inside.2)
    intro _
    exact (ih (fun other member => hold other (by simp [member]))
      fun other member => known other (by simp [member])).bind fun _ => .pure fun _ kept => kept

variable {α : Type} [Scalar α]

theorem propagate_tightened (start : Store α) (r : Relu) (t : Tolerance α) :
    Preserves (Store.Tightened start) (r.propagate t) := by
  apply Ends.bind (deriveEach_tightened start _)
  intro _
  apply Ends.bind (Effort.observe_tightened start _)
  intro _
  exact (deriveEach_tightened start _).bind fun _ => .pure fun _ kept => kept

theorem propagateAll_tightened (start : Store α) (t : Tolerance α) (relus : List Relu) :
    Preserves (Store.Tightened start) (propagateAll t relus) := by
  induction relus with
  | nil => exact .pure fun _ kept => kept
  | cons r rest ih =>
    apply Ends.bind (propagate_tightened start r t)
    intro _
    exact ih.bind fun _ => .pure fun _ kept => kept

end Relu

namespace Effort

/-- Constraints in normal form, about known variables, that an assignment satisfies. -/
structure Satisfied (size : Nat) (x : Variable → ℚ) (rows : List (Equation Extended)) : Prop where
  formed : ∀ row ∈ rows, row.WellFormed
  known : ∀ row ∈ rows, ∀ a ∈ row.addends, a.var < size
  hold : ∀ row ∈ rows, row.Holds x

variable {effort : Effort Extended} {size : Nat} {x : Variable → ℚ}
  {equations derived : List (Equation Extended)} {relus : List Relu}

/-- Propagation succeeds and keeps every assignment that satisfies its constraints. -/
theorem propagate_encloses (precise : effort.tolerance.epsilon = 0)
    (first : Satisfied size x equations) (second : Satisfied size x derived)
    (hold : ∀ r ∈ relus, r.Holds x) (known : ∀ r ∈ relus, r.b < size ∧ r.f < size) :
    Returns (Store.Encloses size x) (effort.propagate equations derived relus)
      fun _ last => last.Encloses size x := by
  have nonnegative : 0 ≤ effort.tolerance.epsilon := by simp [precise]
  have once : Returns (Store.Encloses size x) (effort.propagateOnce equations derived relus)
      fun _ last => last.Encloses size x := by
    apply Ends.bind (examineRows_encloses first.formed first.hold first.known nonnegative false)
    intro _
    apply Ends.bind (examineRows_encloses second.formed second.hold second.known nonnegative false)
    intro _
    exact (Relu.propagateAll_encloses precise hold known).bind fun _ => .pure fun _ kept => kept
  have each : ∀ rounds, Returns (Store.Encloses size x)
      (effort.propagateFor equations derived relus rounds) fun _ last => last.Encloses size x := by
    intro rounds
    induction rounds with
    | zero => exact .pure fun _ kept => kept
    | succ rounds ih =>
      apply once.bind
      intro news
      split
      · exact .pure fun _ kept => kept
      · exact ih.bind fun _ => .pure fun _ kept => kept
  exact each effort.rounds

theorem propagate_tightened {α : Type} [Scalar α] (effort : Effort α) (start : Store α)
    (equations derived : List (Equation α)) (relus : List Relu) :
    Preserves (Store.Tightened start) (effort.propagate equations derived relus) := by
  have each : ∀ rounds, Preserves (Store.Tightened start)
      (effort.propagateFor equations derived relus rounds) := by
    intro rounds
    induction rounds with
    | zero => exact .pure fun _ kept => kept
    | succ rounds ih =>
      refine Ends.through (fun _ => Store.Tightened start) ?_ fun news => ?_
      · apply Ends.bind (examineRows_tightened effort start equations false)
        intro _
        apply Ends.bind (examineRows_tightened effort start derived false)
        intro _
        exact (Relu.propagateAll_tightened start _ relus).bind fun _ => .pure fun _ kept => kept
      · split
        · exact .pure fun _ kept => kept
        · exact ih.bind fun _ => .pure fun _ kept => kept
  exact each effort.rounds

end Effort

end ReluSolver
