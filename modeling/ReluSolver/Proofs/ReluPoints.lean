import ReluSolver.Proofs.ReluFixpoint

/-! What the rules of a ReLU lose of its points. A phase that is only seen up to the
tolerance moves bounds past a point by no more than the tolerance, so the bounds never
cross by more, and where the point is on the side of the phase nothing moves past it. -/

namespace ReluSolver

open Extended Deduction

namespace Interval

variable {i : Interval Extended} {low high x : ℚ}

theorem Contains.defined (inside : i.Contains x) : i.Defined :=
  ⟨fun lower => not_undefined_le (lower ▸ inside.lower),
    fun upper => not_le_undefined (upper ▸ inside.upper)⟩

theorem Spans.contains (spans : i.Spans x x) : i.Contains x := ⟨spans.lower, spans.upper⟩

theorem Spans.within {t : Tolerance Extended} {epsilon : ℚ} (same : t.epsilon = finite epsilon)
    (positive : 0 ≤ epsilon) (spans : i.Spans low high) (below : high ≤ x + epsilon)
    (above : x ≤ low + epsilon) : t.within (finite x) i.lower i.upper = true := by
  rw [Tolerance.within, Bool.and_eq_true, Tolerance.le, Tolerance.ge_eq_true same positive,
    Tolerance.ge_eq_true same positive]
  constructor
  · rcases le_finite_cases spans.lower with shape | ⟨l, shape, under⟩ <;> rw [shape]
    · trivial
    · exact under.trans below
  · rcases finite_le_cases spans.upper with shape | ⟨u, shape, upper⟩ <;> rw [shape]
    · trivial
    · exact above.trans (by linarith)

end Interval

/-- No stricter than a lower bound `high`, or than an upper bound `low`. -/
def Tightening.Between (t : Tightening Extended) (low high : Variable → ℚ) : Prop :=
  match t.side with
  | .lower => t.value ≤ finite (high t.var)
  | .upper => finite (low t.var) ≤ t.value

namespace Relu

variable {r : Relu} {low high : Variable → ℚ} {s : Store Extended}

/-- The bounds of the input and of the output span what is between `low` and `high`, which
are no further apart than bounds may cross. -/
structure Spread (r : Relu) (low high : Variable → ℚ) (s : Store Extended) : Prop where
  slack : ∀ v, v = r.b ∨ v = r.f → finite (high v - low v) ≤ s.tolerance.epsilon
  spans : ∀ v, v = r.b ∨ v = r.f → ∃ i, s.interval v = .ok i ∧ i.Spans (low v) (high v)

theorem Spread.bounded (spread : r.Spread low high s) :
    ∃ b f, r.Bounded b f s ∧ b.Spans (low r.b) (high r.b) ∧ f.Spans (low r.f) (high r.f) := by
  obtain ⟨b, input, spansInput⟩ := spread.spans r.b (.inl rfl)
  obtain ⟨f, output, spansOutput⟩ := spread.spans r.f (.inr rfl)
  exact ⟨b, f, ⟨input, output⟩, spansInput, spansOutput⟩

private theorem put_spans {c : Cell Extended} {t : Tightening Extended} {flag : Bool}
    (between : t.Between low high) (spans : c.bounds.Spans (low t.var) (high t.var)) :
    (c.put t.side t.value flag).bounds.Spans (low t.var) (high t.var) := by
  obtain ⟨side, var, value⟩ := t
  cases side with
  | lower => exact ⟨between, spans.upper⟩
  | upper => exact ⟨spans.lower, between⟩

theorem derive_spread {t : Tightening Extended} (between : t.Between low high)
    (about : t.var = r.b ∨ t.var = r.f) :
    Returns (r.Spread low high) (derive t) fun _ => r.Spread low high := by
  intro s spread
  obtain ⟨i, held, spans⟩ := spread.spans t.var about
  obtain ⟨c, found, rfl⟩ := Store.interval_eq_ok.mp held
  obtain ⟨known, rfl⟩ := Array.getElem?_eq_some_iff.mp found
  unfold derive
  rw [Store.tighten_known known]
  rcases Store.place_cases s t known with ⟨-, placed⟩ | ⟨observer, -, placed⟩
  · rw [placed]
    exact spread
  · have consistent : (s.cells[t.var].put t.side t.value true).isConsistent s.tolerance = true :=
      Tolerance.ge_of_spans (put_spans between spans) (spread.slack t.var about)
    rw [placed, if_pos consistent]
    refine ⟨spread.slack, fun v mine => ?_⟩
    by_cases here : t.var = v
    · subst here
      exact ⟨(s.cells[t.var].put t.side t.value true).bounds,
        Store.interval_eq_ok.mpr ⟨_, by simp, rfl⟩, put_spans between spans⟩
    · obtain ⟨i, held, spans⟩ := spread.spans v mine
      obtain ⟨c, found, rfl⟩ := Store.interval_eq_ok.mp held
      refine ⟨_, Store.interval_eq_ok.mpr ⟨c, ?_, rfl⟩, spans⟩
      exact (Array.getElem?_set_ne known here).trans found

/-- Each rule reads off a bound in between. -/
def RulesBetween (r : Relu) (low high : Variable → ℚ)
    (rules : List (Store Extended → Except Fault (Tightening Extended))) : Prop :=
  ∀ rule ∈ rules, ∀ s b f, r.Bounded b f s → b.Spans (low r.b) (high r.b) →
    f.Spans (low r.f) (high r.f) →
      ∃ t, rule s = .ok t ∧ t.Between low high ∧ (t.var = r.b ∨ t.var = r.f)

theorem deriveEach_spread {rules : List (Store Extended → Except Fault (Tightening Extended))}
    (each : r.RulesBetween low high rules) :
    Returns (r.Spread low high) (deriveEach rules) fun _ => r.Spread low high := by
  induction rules with
  | nil => exact .pure fun _ kept => kept
  | cons rule rest ih =>
    refine Ends.through (fun t s => (t.Between low high ∧ (t.var = r.b ∨ t.var = r.f)) ∧
      r.Spread low high s) ?_ fun t => ?_
    · intro s spread
      obtain ⟨b, f, bounded, input, output⟩ := spread.bounded
      obtain ⟨t, read, inside⟩ := each rule (by simp) s b f bounded input output
      simp only [observe, read]
      exact ⟨inside, spread⟩
    · refine Ends.through (fun _ => r.Spread low high) ?_ fun _ => ?_
      · exact .from_state fun s both => (derive_spread both.1.1 both.1.2).here both.2
      · exact (ih fun later member => each later (by simp [member])).bind
          fun _ => .pure fun _ kept => kept

variable {x : Variable → ℚ}

theorem commonRules_between (holds : r.Holds x) : r.RulesBetween x x r.commonRules := by
  intro rule member s b f bounded input output
  simp only [commonRules, List.mem_cons, List.not_mem_nil, or_false] at member
  rcases member with rfl | rfl | rfl | rfl
  · exact ⟨_, rfl, zero_eq ▸ le_finite.mpr holds.nonneg, .inr rfl⟩
  · exact ⟨_, copyLower_eq bounded.input _,
      Extended.le_trans input.lower (le_finite.mpr holds.input_le), .inr rfl⟩
  · refine ⟨_, cap_eq bounded.input _, ?_, .inr rfl⟩
    change finite (x r.f) ≤ outputOf b.upper
    rw [show x r.f = _ from holds]
    rcases finite_le_cases input.upper with shape | ⟨u, shape, above⟩ <;> rw [shape]
    · rfl
    · simpa [outputOf] using max_le_max_right 0 above
  · exact ⟨_, copyUpper_eq bounded.output _,
      Extended.le_trans (le_finite.mpr holds.input_le) output.upper, .inl rfl⟩

/-- How low the rules of a phase may bring an upper bound of a point's variable. -/
def lowest (r : Relu) (x : Variable → ℚ) : Phase → Variable → ℚ
  | .active => fun _ => x r.b
  | .inactive => fun v => min (x v) 0
  | .unfixed => x

/-- How high the rules of a phase may bring a lower bound of a point's variable. -/
def highest (r : Relu) (x : Variable → ℚ) : Phase → Variable → ℚ
  | .active => fun _ => x r.f
  | .inactive | .unfixed => x

theorem phaseRules_between (holds : r.Holds x) (phase : Phase) :
    r.RulesBetween (r.lowest x phase) (r.highest x phase) (r.phaseRules phase) := by
  intro rule member s b f bounded input output
  cases phase with
  | active =>
    simp only [phaseRules, List.mem_cons, List.not_mem_nil, or_false] at member
    rcases member with rfl | rfl | rfl | rfl | rfl
    · exact ⟨_, rfl, zero_eq ▸ le_finite.mpr holds.nonneg, .inl rfl⟩
    · exact ⟨_, copyLower_eq bounded.output _, output.lower, .inl rfl⟩
    · exact ⟨_, copyLower_eq bounded.input _, input.lower, .inr rfl⟩
    · exact ⟨_, copyUpper_eq bounded.input _, input.upper, .inr rfl⟩
    · exact ⟨_, copyUpper_eq bounded.output _, output.upper, .inl rfl⟩
  | inactive =>
    simp only [phaseRules, List.mem_cons, List.not_mem_nil, or_false] at member
    rcases member with rfl | rfl
    · exact ⟨_, rfl, zero_eq ▸ le_finite.mpr (min_le_right _ _), .inr rfl⟩
    · exact ⟨_, rfl, zero_eq ▸ le_finite.mpr (min_le_right _ _), .inl rfl⟩
  | unfixed => cases member

/-- The point is on the side of zero that a phase says, up to some distance. -/
def NearSide (r : Relu) (x : Variable → ℚ) (distance : ℚ) : Phase → Prop
  | .active => x r.f ≤ x r.b + distance
  | .inactive => x r.f ≤ distance
  | .unfixed => True

section Points

variable {t : Tolerance Extended} {epsilon : ℚ} (same : t.epsilon = finite epsilon)
  (positive : 0 ≤ epsilon) (holds : r.Holds x)
include same positive holds

theorem nearSide_of_phaseWithin {b f : Interval Extended} (input : b.Contains (x r.b))
    (output : f.Contains (x r.f)) : r.NearSide x epsilon (phaseWithin t b f) := by
  have value : x r.f = max (x r.b) 0 := holds
  unfold phaseWithin
  split
  next active =>
    rw [Bool.or_eq_true, t.ge_zero same positive, Tolerance.isPositive, same, decide_eq_true_eq]
      at active
    change x r.f ≤ x r.b + epsilon
    rcases active with above | above
    · have : -epsilon ≤ x r.b := le_finite.mp (Extended.le_trans above input.lower)
      grind
    · have : ¬ x r.f ≤ epsilon := fun small =>
        not_lt_of_le (Extended.le_trans output.lower (le_finite.mpr small)) above
      grind
  next =>
    split
    next inactive =>
      rw [Bool.or_eq_true, t.le_zero same positive, t.le_zero same positive] at inactive
      change x r.f ≤ epsilon
      rcases inactive with below | below
      · have : x r.b ≤ epsilon := le_finite.mp (Extended.le_trans input.upper below)
        grind
      · exact le_finite.mp (Extended.le_trans output.upper below)
    next => trivial

/-- The rules of the phase need no more room than the tolerance. -/
theorem room_of_phaseWithin {b f : Interval Extended} (input : b.Contains (x r.b))
    (output : f.Contains (x r.f)) {v : Variable} (mine : v = r.b ∨ v = r.f) :
    r.lowest x (phaseWithin t b f) v ≤ x v ∧ x v ≤ r.highest x (phaseWithin t b f) v ∧
      r.highest x (phaseWithin t b f) v ≤ r.lowest x (phaseWithin t b f) v + epsilon := by
  have near := nearSide_of_phaseWithin same positive holds input output
  have above := holds.input_le
  have nonneg := holds.nonneg
  cases phase : phaseWithin t b f <;> simp only [phase, NearSide] at near <;>
    rcases mine with rfl | rfl <;> simp only [lowest, highest] <;> grind

omit same positive in
theorem room_of_onSide {phase : Phase} (side : r.OnSide x phase) {v : Variable}
    (mine : v = r.b ∨ v = r.f) : r.lowest x phase v = x v ∧ r.highest x phase v = x v := by
  cases phase with
  | active => rcases mine with rfl | rfl <;> simp [lowest, highest, holds.eq_input side]
  | inactive =>
    have zero := holds.eq_zero side
    rcases mine with rfl | rfl <;> simp_all [lowest, highest, OnSide]
  | unfixed => exact ⟨rfl, rfl⟩

variable {b f : Interval Extended} (slack : t.epsilon ≤ s.tolerance.epsilon)
include slack

omit positive holds in
private theorem fits {a c : ℚ} (room : c ≤ a + epsilon) : finite (c - a) ≤ s.tolerance.epsilon :=
  Extended.le_trans (le_finite.mpr (by linarith)) (same ▸ slack)

/-- The rules that hold in any phase keep the point, and those of a phase that is then seen
have all the room that they need. -/
theorem spread_of_point {b f : Interval Extended} (bounded : r.Bounded b f s)
    (input : b.Contains (x r.b)) (output : f.Contains (x r.f)) :
    r.Spread (r.lowest x (phaseWithin t b f)) (r.highest x (phaseWithin t b f)) s := by
  refine ⟨fun v mine => ?_, fun v mine => ?_⟩
  · exact fits same slack (room_of_phaseWithin same positive holds input output mine).2.2
  · have room := room_of_phaseWithin same positive holds input output mine
    rcases mine with rfl | rfl
    · exact ⟨b, bounded.input, input.spans room.1 room.2.1⟩
    · exact ⟨f, bounded.output, output.spans room.1 room.2.1⟩

/-- A pass over bounds with a point of the ReLU in them succeeds. The point is then still in
them up to the tolerance, and exactly so where it is on the side of the phase. -/
theorem propagate_keeps_points (bounded : r.Bounded b f s) (input : b.Contains (x r.b))
    (output : f.Contains (x r.f)) :
    ∃ phase news last b' f', (r.b ≠ r.f → r.phase s t = .ok phase) ∧
      (∀ common mid, deriveEach r.commonRules s = .ok common mid → r.phase mid t = .ok phase) ∧
      r.propagate t s = .ok news last ∧ r.Bounded b' f' last ∧
      t.within (finite (x r.b)) b'.lower b'.upper = true ∧
      t.within (finite (x r.f)) f'.lower f'.upper = true ∧
      (r.OnSide x phase → b'.Contains (x r.b) ∧ f'.Contains (x r.f)) := by
  -- The rules that hold in any phase need no room around the point.
  have point : r.Spread x x s := by
    refine ⟨fun v _ => fits same slack (le_add_of_nonneg_right positive), ?_⟩
    rintro v (rfl | rfl)
    · exact ⟨b, bounded.input, input.spans le_rfl le_rfl⟩
    · exact ⟨f, bounded.output, output.spans le_rfl le_rfl⟩
  obtain ⟨common, mid, began, kept⟩ := (deriveEach_spread (commonRules_between holds)).run point
  obtain ⟨b', f', between, input', output'⟩ := kept.bounded
  have tolerance := ((deriveEach_tightened s _).ok .refl began).tolerance_eq
  -- Those of the phase that is seen then need some, but no more than the tolerance.
  have spread := spread_of_point same positive holds (tolerance ▸ slack) between input'.contains
    output'.contains
  obtain ⟨later, last, ended, wide⟩ := (deriveEach_spread (phaseRules_between holds _)).run spread
  obtain ⟨b'', f'', after, inputLast, outputLast⟩ := wide.bounded
  have seen := between.phase_eq t
  have settled := commonRules_settle same positive bounded ⟨input.defined, output.defined⟩
  obtain ⟨phase, again, before, -⟩ := settled.ok rfl began
  obtain rfl := Except.ok.inj (again.symm.trans seen)
  have room {v : Variable} := @room_of_phaseWithin r x t epsilon same positive holds b' f'
    input'.contains output'.contains v
  refine ⟨_, common + later, last, b'', f'', before, ?_, ?_, after, ?_, ?_, fun side => ?_⟩
  · intro common' mid' run
    obtain ⟨-, rfl⟩ := EStateM.Result.ok.inj (began.symm.trans run)
    exact seen
  · have observed : observe (r.phase · t) mid = .ok (phaseWithin t b' f') mid :=
      observe_eq_ok.mpr ⟨seen, rfl⟩
    exact run_bind_eq_ok.mpr ⟨common, mid, began, run_bind_eq_ok.mpr
      ⟨_, mid, observed, run_bind_eq_ok.mpr ⟨later, last, ended, rfl⟩⟩⟩
  · obtain ⟨low, high, near⟩ := room (.inl rfl)
    exact inputLast.within same positive (by linarith) (by linarith)
  · obtain ⟨low, high, near⟩ := room (.inr rfl)
    exact outputLast.within same positive (by linarith) (by linarith)
  · have none {v : Variable} := @room_of_onSide r x holds _ side v
    rw [(none (.inl rfl)).1, (none (.inl rfl)).2] at inputLast
    rw [(none (.inr rfl)).1, (none (.inr rfl)).2] at outputLast
    exact ⟨inputLast.contains, outputLast.contains⟩

end Points

/-- A point that a nearly active phase moves the bounds past. -/
theorem propagate_keeps_points_past :
    let r : Relu := ⟨0, 1⟩
    let t : Tolerance Extended := ⟨finite (1 / 2)⟩
    let b : Interval Extended := ⟨finite (-1 / 4), 3⟩
    let s : Store Extended := ⟨#[⟨b, false, false⟩, Cell.unbounded], .empty, .absent, t⟩
    let x : Variable → ℚ := fun v => if v = 0 then -1 / 4 else 0
    t.epsilon = finite (1 / 2) ∧ (0 : ℚ) ≤ 1 / 2 ∧ r.Holds x ∧ t.epsilon ≤ s.tolerance.epsilon ∧
      r.Bounded b .all s ∧ b.Contains (x r.b) ∧ Interval.all.Contains (x r.f) ∧
      ∃ phase news last b' f', (r.b ≠ r.f → r.phase s t = .ok phase) ∧
        (∀ common mid, deriveEach r.commonRules s = .ok common mid → r.phase mid t = .ok phase) ∧
        r.propagate t s = .ok news last ∧ r.Bounded b' f' last ∧
        t.within (finite (x r.b)) b'.lower b'.upper = true ∧
        t.within (finite (x r.f)) f'.lower f'.upper = true ∧
        (r.OnSide x phase → b'.Contains (x r.b) ∧ f'.Contains (x r.f)) := by
  intro r t b s x
  have positive : (0 : ℚ) ≤ 1 / 2 := by norm_num
  have holds : r.Holds x := by norm_num [Relu.Holds, r, x]
  have slack : t.epsilon ≤ s.tolerance.epsilon := by decide +kernel
  have bounded : r.Bounded b .all s := ⟨rfl, rfl⟩
  have input : b.Contains (x r.b) := ⟨by decide +kernel, by decide +kernel⟩
  have output : Interval.all.Contains (x r.f) := Interval.all_contains _
  exact ⟨rfl, positive, holds, slack, bounded, input, output,
    propagate_keeps_points rfl positive holds slack bounded input output⟩

end Relu

end ReluSolver
