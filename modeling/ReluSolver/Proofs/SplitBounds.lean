import ReluSolver.Proofs.StoreConsistency

/-! A store that takes the tightenings of a split one by one and the bounds that the split
computes for a variable agree. The meet of an interval with some tightenings has a
description without an order: it is bounded by a number if the interval and all the
tightenings are. That a store stops at the first conflict does not matter either, as no
later tightening can undo a conflict. -/

namespace ReluSolver

open Extended

namespace Extended

variable {x y : Extended}

theorem position_injective (defined : x ≠ undefined) (defined' : y ≠ undefined)
    (same : x.position = y.position) : x = y := by
  cases x <;> cases y <;>
    first
    | exact absurd rfl defined
    | exact absurd rfl defined'
    | simp_all [position]

theorem max_undefined (defined : x ≠ undefined) : Scalar.max x undefined = x := by
  simp [Scalar.max, isUndefined_eq_false defined, not_lt_undefined]

theorem min_undefined (defined : x ≠ undefined) : Scalar.min x undefined = x := by
  simp [Scalar.min, isUndefined_eq_false defined, not_undefined_lt]

end Extended

namespace Interval

variable {t : Tolerance Extended} {epsilon : ℚ} {i outer : Interval Extended}

def Crosses (t : Tolerance Extended) (i : Interval Extended) : Prop := t.lt i.upper i.lower = true

theorem Defined.numeric (defined : i.Defined) : i.Numeric :=
  ⟨isUndefined_eq_false defined.1, isUndefined_eq_false defined.2⟩

theorem Numeric.defined (numeric : i.Numeric) : i.Defined := by
  constructor
  · exact fun same => absurd (same ▸ numeric.lower) (by decide)
  · exact fun same => absurd (same ▸ numeric.upper) (by decide)

section Crossing

variable (same : t.epsilon = finite epsilon) (positive : 0 ≤ epsilon)
include same positive

theorem crosses_iff (defined : i.Defined) : i.Crosses t ↔ ¬ t.ge i.upper i.lower = true := by
  obtain ⟨lower, upper⟩ := i
  rw [Crosses, Tolerance.ge_eq_true same positive]
  cases lower <;> cases upper <;>
    first
    | exact absurd rfl defined.1
    | exact absurd rfl defined.2
    | (simp only [Tolerance.lt, Tolerance.gt, same]; exact iff_of_true rfl id)
    | (simp only [Tolerance.lt, Tolerance.gt, same]
       exact iff_of_false Bool.false_ne_true (not_not_intro trivial))
    | skip
  next l u =>
    simp only [Tolerance.lt, Tolerance.gt, same, beq_finite, sub_finite, lt_finite,
      Bool.and_eq_true, Bool.not_eq_true', decide_eq_false_iff_not, decide_eq_true_eq]
    constructor
    · rintro ⟨-, apart⟩ near
      linarith
    · intro apart
      refine ⟨?_, by linarith⟩
      rintro rfl
      exact apart (by linarith)

theorem sound_of_ge (near : t.ge i.upper i.lower = true) : i.Sound t := by
  refine ⟨Defined.numeric ?_, near⟩
  obtain ⟨lower, upper⟩ := i
  rw [Tolerance.ge_eq_true same positive] at near
  constructor
  · rintro rfl
    cases upper <;> exact near
  · rintro rfl
    exact near

theorem Narrows.consistent (narrows : i.Narrows outer) (near : t.ge i.upper i.lower = true) :
    t.ge outer.upper outer.lower = true := by
  have lowered : t.ge i.upper outer.lower = true := by
    rcases narrows.lower with equal | less
    · exact equal ▸ near
    · exact Tolerance.ge_of_lt same positive less near
  rcases narrows.upper with equal | less
  · exact equal ▸ lowered
  · exact Tolerance.ge_of_gt same positive less lowered

end Crossing

end Interval

namespace Tightening

variable {i : Interval Extended} (defined : i.Defined) (t : Tightening Extended)
include defined

theorem narrow_narrows : (t.narrow i).Narrows i := by
  obtain ⟨side, var, value⟩ := t
  cases side with
  | lower =>
    refine ⟨?_, .inl rfl⟩
    simp only [narrow, Scalar.max, isUndefined_eq_false defined.1, Bool.false_eq_true, if_false]
    split
    next less => exact .inr less
    next => exact .inl rfl
  | upper =>
    refine ⟨.inl rfl, ?_⟩
    simp only [narrow, Scalar.min, isUndefined_eq_false defined.2, Bool.false_eq_true, if_false]
    split
    next less => exact .inr less
    next => exact .inl rfl

theorem position_narrow_lower (p : WithBot (WithTop ℚ)) :
    (t.narrow i).lower.position ≤ p ↔
      i.lower.position ≤ p ∧ (t.side = .lower → t.value ≠ undefined → t.value.position ≤ p) := by
  obtain ⟨side, var, value⟩ := t
  cases side with
  | lower =>
    by_cases number : value = undefined
    · simp [narrow, number, max_undefined defined.1]
    · simp [narrow, position_max defined.1 number, number]
  | upper => simp [narrow]

theorem position_narrow_upper (p : WithBot (WithTop ℚ)) :
    p ≤ (t.narrow i).upper.position ↔
      p ≤ i.upper.position ∧ (t.side = .upper → t.value ≠ undefined → p ≤ t.value.position) := by
  obtain ⟨side, var, value⟩ := t
  cases side with
  | lower => simp [narrow]
  | upper =>
    by_cases number : value = undefined
    · simp [narrow, number, min_undefined defined.2]
    · simp [narrow, position_min defined.2 number, number]

end Tightening

namespace CaseSplit

variable {v : Variable} {i : Interval Extended} {ts us : List (Tightening Extended)}

theorem boundsOf_cons (t : Tightening Extended) (ts : List (Tightening Extended)) (v : Variable)
    (i : Interval Extended) :
    boundsOf ⟨t :: ts⟩ v i = boundsOf ⟨ts⟩ v (if t.var = v then t.narrow i else i) := by
  by_cases here : t.var = v <;> simp [boundsOf, here]

theorem boundsOf_defined (defined : i.Defined) (ts : List (Tightening Extended)) (v : Variable) :
    (boundsOf ⟨ts⟩ v i).Defined := by
  induction ts generalizing i with
  | nil => exact defined
  | cons t rest ih =>
    rw [boundsOf_cons]
    split
    · exact ih (defined.narrow t)
    · exact ih defined

theorem boundsOf_narrows (defined : i.Defined) (ts : List (Tightening Extended)) (v : Variable) :
    (boundsOf ⟨ts⟩ v i).Narrows i := by
  induction ts generalizing i with
  | nil => exact .refl i
  | cons t rest ih =>
    rw [boundsOf_cons]
    split
    · exact (ih (defined.narrow t)).trans (t.narrow_narrows defined)
    · exact ih defined

theorem position_boundsOf_lower (defined : i.Defined) (p : WithBot (WithTop ℚ)) :
    (boundsOf ⟨ts⟩ v i).lower.position ≤ p ↔ i.lower.position ≤ p ∧
      ∀ t ∈ ts, t.var = v → t.side = .lower → t.value ≠ undefined → t.value.position ≤ p := by
  induction ts generalizing i with
  | nil => simp [boundsOf]
  | cons t rest ih =>
    rw [boundsOf_cons, List.forall_mem_cons]
    split
    next here => rw [ih (defined.narrow t), t.position_narrow_lower defined]; simp [here, and_assoc]
    next other => rw [ih defined]; simp [other]

theorem position_boundsOf_upper (defined : i.Defined) (p : WithBot (WithTop ℚ)) :
    p ≤ (boundsOf ⟨ts⟩ v i).upper.position ↔ p ≤ i.upper.position ∧
      ∀ t ∈ ts, t.var = v → t.side = .upper → t.value ≠ undefined → p ≤ t.value.position := by
  induction ts generalizing i with
  | nil => simp [boundsOf]
  | cons t rest ih =>
    rw [boundsOf_cons, List.forall_mem_cons]
    split
    next here => rw [ih (defined.narrow t), t.position_narrow_upper defined]; simp [here, and_assoc]
    next other => rw [ih defined]; simp [other]

/-- The order of tightenings does not matter, nor how often each of them is made. -/
theorem boundsOf_congr (defined : i.Defined) (same : ∀ t, t ∈ ts ↔ t ∈ us) (v : Variable) :
    boundsOf ⟨ts⟩ v i = boundsOf ⟨us⟩ v i := by
  have left := boundsOf_defined defined ts v
  have right := boundsOf_defined defined us v
  have lower : (boundsOf ⟨ts⟩ v i).lower = (boundsOf ⟨us⟩ v i).lower :=
    position_injective left.1 right.1 (eq_of_forall_ge_iff fun p => by
      simp only [position_boundsOf_lower defined, same])
  have upper : (boundsOf ⟨ts⟩ v i).upper = (boundsOf ⟨us⟩ v i).upper :=
    position_injective left.2 right.2 (eq_of_forall_le_iff fun p => by
      simp only [position_boundsOf_upper defined, same])
  exact congrArg₂ Interval.mk lower upper

end CaseSplit

namespace Store

variable {s last last' : Store Extended} {ts us : List (Tightening Extended)}
  {outcome outcome' : Outcome} {v : Variable} {bounds : Interval Extended}

theorem tighten_interval {t : Tightening Extended} (defined : bounds.Defined)
    (run : (tighten t s : EStateM.Result Fault _ _) = .ok outcome last)
    (held : s.interval v = .ok bounds) :
    last.interval v = .ok (if t.var = v then t.narrow bounds else bounds) := by
  obtain ⟨known, placed⟩ := tighten_eq_ok run
  have narrowed := Relu.interval_place held defined known
  rwa [placed] at narrowed

theorem tightenAll_interval (defined : bounds.Defined)
    (run : (tightenAll ts s : EStateM.Result Fault _ _) = .ok outcome last)
    (feasible : outcome ≠ .infeasible) (held : s.interval v = .ok bounds) :
    last.interval v = .ok (CaseSplit.boundsOf ⟨ts⟩ v bounds) := by
  induction ts generalizing s bounds outcome with
  | nil =>
    obtain ⟨-, rfl⟩ := EStateM.Result.ok.inj run
    exact held
  | cons t rest ih =>
    rcases andThen_eq_ok run with ⟨-, same⟩ | ⟨early, mid, late, first, -, later, merged⟩
    · exact absurd same feasible
    rw [CaseSplit.boundsOf_cons]
    refine ih ?_ later (fun same => feasible ?_) (tighten_interval defined first held)
    · split
      · exact defined.narrow t
      · exact defined
    · rw [merged, Outcome.merge_eq_infeasible]
      exact .inr same

theorem tighten_infeasible {t : Tightening Extended}
    (defined : ∀ v, (cellOf s.cells v).bounds.Defined)
    (run : (tighten t s : EStateM.Result Fault _ _) = .ok .infeasible last) :
    t.var < s.size ∧ ¬ s.tolerance.ge (t.narrow (cellOf s.cells t.var).bounds).upper
      (t.narrow (cellOf s.cells t.var).bounds).lower = true := by
  obtain ⟨known, placed⟩ := tighten_eq_ok run
  refine ⟨known, fun near => ?_⟩
  have bounds := defined t.var
  rw [cellOf_known known] at near bounds
  rcases place_cases s t known with ⟨-, shape⟩ | ⟨observer, improves, shape⟩
  · cases (Prod.mk.inj (placed.symm.trans shape)).1
  · have consistent : (s.cells[t.var].put t.side t.value true).isConsistent s.tolerance = true := by
      rwa [Cell.isConsistent, Cell.put_bounds bounds improves]
    rw [if_pos consistent] at shape
    cases (Prod.mk.inj (placed.symm.trans shape)).1

theorem tightenAll_accepted_iff (defined : ∀ v, (cellOf s.cells v).bounds.Defined)
    (run : (tightenAll ts s : EStateM.Result Fault _ _) = .ok outcome last)
    (feasible : outcome ≠ .infeasible) :
    outcome = .accepted ↔ ∃ v bounds, s.interval v = .ok bounds ∧
      CaseSplit.boundsOf ⟨ts⟩ v bounds ≠ bounds := by
  have kept := (tightenAll_tightened s ts).ok .refl run
  constructor
  · rintro rfl
    obtain ⟨v, stricter⟩ := tightenAll_accepted run
    have known : v < s.size := by
      by_contra new
      have new' : s.cells.size ≤ v := not_lt.mp new
      rw [cellOf_new new', cellOf_new (kept.size_eq.trans_le new')] at stricter
      exact stricter.ne rfl
    have after := tightenAll_interval (defined v) run feasible (interval_known known)
    exact ⟨v, _, interval_known known, (interval_iff_cellOf.mp after).2 ▸ stricter.ne⟩
  · rintro ⟨v, bounds, held, changed⟩
    cases outcome with
    | accepted => rfl
    | infeasible => exact absurd rfl feasible
    | rejected =>
      obtain rfl := tightenAll_rejected run
      obtain ⟨known, rfl⟩ := interval_iff_cellOf.mp held
      have still := (tightenAll_interval (defined v) run feasible held).symm.trans held
      exact absurd (Except.ok.inj still) changed

section Sound

variable {epsilon : ℚ} (same : s.tolerance.epsilon = finite epsilon) (positive : 0 ≤ epsilon)
  (sound : CellsSound s.tolerance s.cells)
include same positive sound

/-- A conflict is one of the bounds that a split of all the tightenings computes. -/
theorem tightenAll_crosses
    (run : (tightenAll ts s : EStateM.Result Fault _ _) = .ok .infeasible last) :
    ∃ v bounds, s.interval v = .ok bounds ∧
      (CaseSplit.boundsOf ⟨ts⟩ v bounds).Crosses s.tolerance := by
  have defined (v : Variable) : (cellOf s.cells v).bounds.Defined := (sound v).toNumeric.defined
  induction ts generalizing s with
  | nil => cases (EStateM.Result.ok.inj run).1
  | cons t rest ih =>
    rcases andThen_eq_ok run with ⟨first, -⟩ | ⟨early, mid, late, first, feasible, later, merged⟩
    · -- Later tightenings leave this conflict in place.
      obtain ⟨known, crossing⟩ := tighten_infeasible defined first
      refine ⟨t.var, _, interval_known known, ?_⟩
      have narrowed := (defined t.var).narrow t
      rw [CaseSplit.boundsOf_cons, if_pos rfl,
        Interval.crosses_iff same positive (CaseSplit.boundsOf_defined narrowed rest t.var)]
      exact fun near => crossing
        ((CaseSplit.boundsOf_narrows narrowed rest t.var).consistent same positive near)
    · obtain rfl := (Outcome.merge_eq_infeasible.mp merged.symm).resolve_left feasible
      have kept := (tighten_tightened s t).ok .refl first
      have tolerance := kept.tolerance_eq
      have after : CellsSound s.tolerance mid.cells := by
        rw [← tightenAll_singleton] at first
        exact ((tightenAll_sound s.tolerance [t]).ok ⟨rfl, sound⟩ first feasible).2
      rw [← tolerance] at same after
      obtain ⟨v, bounds, held, crosses⟩ := ih same after later fun v => (after v).toNumeric.defined
      have known : v < s.size := kept.size_eq ▸ (interval_iff_cellOf.mp held).1
      refine ⟨v, _, interval_known known, ?_⟩
      rw [CaseSplit.boundsOf_cons, ← tolerance]
      have reached := (tighten_interval (defined v) first (interval_known known)).symm.trans held
      exact Except.ok.inj reached ▸ crosses

theorem tightenAll_infeasible_iff
    (run : (tightenAll ts s : EStateM.Result Fault _ _) = .ok outcome last) :
    outcome = .infeasible ↔ ∃ v bounds, s.interval v = .ok bounds ∧
      (CaseSplit.boundsOf ⟨ts⟩ v bounds).Crosses s.tolerance := by
  constructor
  · rintro rfl
    exact tightenAll_crosses same positive sound run
  · rintro ⟨v, bounds, held, crosses⟩
    by_contra feasible
    obtain ⟨known, rfl⟩ := interval_iff_cellOf.mp held
    have defined := (sound v).toNumeric.defined
    have after := ((tightenAll_sound s.tolerance ts).ok ⟨rfl, sound⟩ run feasible).2 v
    have held' := interval_iff_cellOf.mp (tightenAll_interval defined run feasible held)
    rw [Interval.crosses_iff same positive (CaseSplit.boundsOf_defined defined ts v)] at crosses
    exact crosses (held'.2 ▸ after.consistent)

theorem tightenAll_congr (members : ∀ t, t ∈ us ↔ t ∈ ts)
    (run : (tightenAll ts s : EStateM.Result Fault _ _) = .ok outcome last)
    (run' : (tightenAll us s : EStateM.Result Fault _ _) = .ok outcome' last') :
    outcome' = outcome ∧
      (outcome ≠ .infeasible → ∀ v, v < s.size → last'.interval v = last.interval v) := by
  have defined (v : Variable) := (sound v).toNumeric.defined
  have meet {v : Variable} {bounds : Interval Extended} (held : s.interval v = .ok bounds) :
      CaseSplit.boundsOf ⟨us⟩ v bounds = CaseSplit.boundsOf ⟨ts⟩ v bounds := by
    obtain ⟨-, rfl⟩ := interval_iff_cellOf.mp held
    exact CaseSplit.boundsOf_congr (defined v) members v
  have alike (property : Interval Extended → Interval Extended → Prop) :
      (∃ v bounds, s.interval v = .ok bounds ∧
        property bounds (CaseSplit.boundsOf ⟨us⟩ v bounds)) ↔
      ∃ v bounds, s.interval v = .ok bounds ∧
        property bounds (CaseSplit.boundsOf ⟨ts⟩ v bounds) := by
    constructor <;> rintro ⟨v, bounds, held, holds⟩ <;> refine ⟨v, bounds, held, ?_⟩
    · rwa [← meet held]
    · rwa [meet held]
  have conflict : outcome' = .infeasible ↔ outcome = .infeasible :=
    (tightenAll_infeasible_iff same positive sound run').trans
      ((alike fun _ after => after.Crosses s.tolerance).trans
        (tightenAll_infeasible_iff same positive sound run).symm)
  by_cases feasible : outcome = .infeasible
  · exact ⟨by rw [feasible, conflict.mpr feasible], fun never => absurd feasible never⟩
  have feasible' : outcome' ≠ .infeasible := mt conflict.mp feasible
  have change : outcome' = .accepted ↔ outcome = .accepted :=
    (tightenAll_accepted_iff defined run' feasible').trans
      ((alike fun before after => after ≠ before).trans
        (tightenAll_accepted_iff defined run feasible).symm)
  refine ⟨?_, fun _ v known => ?_⟩
  · cases outcome <;> cases outcome' <;> simp_all
  · have held := interval_known known
    rw [tightenAll_interval (defined v) run' feasible' held,
      tightenAll_interval (defined v) run feasible held, meet held]

end Sound

theorem cellsSound_of_consistent {epsilon : Extended}
    (valid : Tolerance.ofEpsilon epsilon = .ok s.tolerance)
    (consistent : ∀ v, v < s.size → s.isConsistent v = .ok true) :
    CellsSound s.tolerance s.cells := by
  obtain ⟨made, e, shape, positive⟩ := Tolerance.ofEpsilon_valid valid
  intro v
  by_cases known : v < s.size
  · have near := consistent v known
    rw [isConsistent, ask_known known] at near
    exact Interval.sound_of_ge (by rw [made, shape]) positive (Except.ok.inj near)
  · rw [cellOf_new (not_lt.mp known)]
    exact all_sound valid

/-- A store tightened by a split finds a conflict if and only if the bounds that the split computes
cross for some variable, and else it has exactly those bounds afterwards. Therefore neither depends
on the order of the tightenings or on how often each of them is made. -/
theorem tightenAll_reads_split {epsilon : Extended}
    (valid : Tolerance.ofEpsilon epsilon = .ok s.tolerance)
    (consistent : ∀ v, v < s.size → s.isConsistent v = .ok true) (split : CaseSplit Extended) :
    ((∀ t ∈ split.tightenings, t.var < s.size) →
      ∃ outcome last,
        (tightenAll split.tightenings s : EStateM.Result Fault _ _) = .ok outcome last) ∧
    ∀ outcome last, (tightenAll split.tightenings s : EStateM.Result Fault _ _) = .ok outcome last →
      (outcome = .infeasible ↔ ∃ v bounds, s.interval v = .ok bounds ∧
        (split.boundsOf v bounds).Crosses s.tolerance) ∧
      (outcome ≠ .infeasible → ∀ v bounds, s.interval v = .ok bounds →
        last.interval v = .ok (split.boundsOf v bounds)) ∧
      ∀ other : CaseSplit Extended, (∀ t, t ∈ other.tightenings ↔ t ∈ split.tightenings) →
        ∀ outcome' last',
          (tightenAll other.tightenings s : EStateM.Result Fault _ _) = .ok outcome' last' →
          outcome' = outcome ∧
          (outcome ≠ .infeasible → ∀ v, v < s.size → last'.interval v = last.interval v) := by
  have sound := cellsSound_of_consistent valid consistent
  obtain ⟨made, e, shape, positive⟩ := Tolerance.ofEpsilon_valid valid
  have same : s.tolerance.epsilon = finite e := by rw [made, shape]
  refine ⟨fun known => ?_, fun outcome last run => ⟨?_, ?_, ?_⟩⟩
  · obtain ⟨outcome, last, run, -⟩ := (tightenAll_total known).run (rfl : s.size = s.size)
    exact ⟨outcome, last, run⟩
  · exact tightenAll_infeasible_iff same positive sound run
  · intro feasible v bounds held
    obtain ⟨-, rfl⟩ := interval_iff_cellOf.mp held
    exact tightenAll_interval (sound v).toNumeric.defined run feasible held
  · intro other members outcome' last' run'
    exact tightenAll_congr same positive sound members run run'

/-- Infinite and undefined values, a repeated tightening, and ends that cross by no more than the
tolerance. -/
theorem tightenAll_reads_split_crossed :
    let s := (Store.new ⟨finite (1 / 2)⟩).perform
      [.register, .register, .tightenBounds 0 ⟨0, infinity⟩]
    let split : CaseSplit Extended :=
      ⟨[.upper 0 3, .lower 1 undefined, .lower 0 (finite (7 / 2)), .upper 0 3,
        .lower 1 negInfinity]⟩
    Tolerance.ofEpsilon (finite (1 / 2)) = .ok s.tolerance ∧
      (∀ v, v < s.size → s.isConsistent v = .ok true) ∧
      (split.boundsOf 0 ⟨0, infinity⟩).lower = finite (7 / 2) ∧
      (split.boundsOf 0 ⟨0, infinity⟩).upper = finite 3 ∧
      ∃ last, (tightenAll split.tightenings s : EStateM.Result Fault _ _) = .ok .accepted last ∧
        last.interval 0 = .ok (split.boundsOf 0 ⟨0, infinity⟩) ∧
        ∀ other : CaseSplit Extended, (∀ t, t ∈ other.tightenings ↔ t ∈ split.tightenings) →
          ∀ outcome' last',
            (tightenAll other.tightenings s : EStateM.Result Fault _ _) = .ok outcome' last' →
            outcome' = .accepted ∧ ∀ v, v < s.size → last'.interval v = last.interval v := by
  intro s split
  have valid : Tolerance.ofEpsilon (finite (1 / 2)) = .ok s.tolerance := if_pos (by decide +kernel)
  have consistent : ∀ v, v < s.size → s.isConsistent v = .ok true := by decide +kernel
  obtain ⟨last, run⟩ : ∃ last,
      (tightenAll split.tightenings s : EStateM.Result Fault _ _) = .ok .accepted last :=
    result_eq_some.mp (by decide +kernel)
  obtain ⟨-, feasible, independent⟩ :=
    (tightenAll_reads_split valid consistent split).2 .accepted last run
  refine ⟨valid, consistent, by decide +kernel, by decide +kernel, last, run,
    feasible nofun 0 ⟨0, infinity⟩ (by rfl), fun other members outcome' last' run' => ?_⟩
  obtain ⟨told, bounds⟩ := independent other members outcome' last' run'
  exact ⟨told, bounds nofun⟩

end Store

end ReluSolver
