import ReluSolver.Proofs.BestIntervals
import ReluSolver.Proofs.DivisionParts
import ReluSolver.Proofs.PhaseStack

/-! A branching heuristic selects a ReLU whenever one is unfixed: the first one among those that it
finds at least as good as all others. An unfixed ReLU with a bounded input is more balanced than
any with an unbounded one. -/

namespace ReluSolver

open Extended

namespace Extended

variable {x y : Extended} (defined : x ≠ undefined) (defined' : y ≠ undefined)
include defined defined'

protected theorem not_le : ¬ y ≤ x ↔ x < y := by
  rw [le_iff_position defined' defined, lt_iff_position defined defined']
  exact not_le

theorem compareTotal_eq :
    Scalar.compareTotal x y = if x < y then .lt else if y < x then .gt else .eq := by
  cases x <;> cases y <;>
    first
    | exact absurd rfl defined
    | exact absurd rfl defined'
    | rfl

theorem compareTotal_lt : (Scalar.compareTotal x y == .lt) = true ↔ ¬ y ≤ x := by
  rw [compareTotal_eq defined defined', Extended.not_le defined defined']
  split
  next less => simp [less]
  next notLess => split <;> simp [notLess]

theorem compareTotal_gt : (Scalar.compareTotal x y == .gt) = true ↔ ¬ x ≤ y := by
  rw [compareTotal_eq defined defined', Extended.not_le defined' defined]
  split
  next less => simp [not_lt_of_le (le_of_lt less)]
  next => split <;> simp_all

end Extended

namespace BranchingHeuristic

/-- Whether a heuristic finds an input interval at least as good as another one. -/
def AtLeast : BranchingHeuristic → Interval Extended → Interval Extended → Prop
  | polarity, i, j => Scalar.abs i.polarity ≤ Scalar.abs j.polarity
  | earliestRelu, _, _ => True
  | widestInterval, i, j => j.width ≤ i.width

section Preference

variable (h : BranchingHeuristic)

theorem AtLeast.trans {h : BranchingHeuristic} {i j k : Interval Extended} (first : h.AtLeast i j)
    (second : h.AtLeast j k) : h.AtLeast i k := by
  cases h with
  | polarity => exact Extended.le_trans first second
  | earliestRelu => trivial
  | widestInterval => exact Extended.le_trans second first

theorem atLeast_total (i j : Interval Extended) : h.AtLeast i j ∨ h.AtLeast j i := by
  cases h with
  | polarity => exact Extended.le_total Interval.imbalance_defined Interval.imbalance_defined
  | earliestRelu => exact .inl trivial
  | widestInterval => exact Extended.le_total Interval.width_defined Interval.width_defined

theorem prefers_iff (x y : Candidate Extended) :
    h.prefers x y = true ↔ ¬ h.AtLeast y.bounds x.bounds := by
  cases h with
  | polarity => exact compareTotal_lt Interval.imbalance_defined Interval.imbalance_defined
  | earliestRelu => simp [prefers, AtLeast]
  | widestInterval => exact compareTotal_gt Interval.width_defined Interval.width_defined

end Preference

variable {q : Query Extended} {s : Store Extended} {t : Tolerance Extended}

theorem unfixedFrom_ascending {relus : List Relu} {first : Nat} {unfixed : List (Candidate Extended)}
    (run : unfixedFrom s t first relus = .ok unfixed) :
    unfixed.Pairwise (·.index < ·.index) := by
  induction relus generalizing first unfixed with
  | nil =>
    obtain rfl := Except.ok.inj run
    exact .nil
  | cons r rest ih =>
    obtain ⟨phase, -, run⟩ := bind_eq_ok.mp run
    obtain ⟨bounds, -, run⟩ := bind_eq_ok.mp run
    obtain ⟨later, others, run⟩ := bind_eq_ok.mp run
    obtain rfl := Except.ok.inj run
    split
    · refine List.pairwise_cons.mpr ⟨fun candidate member => ?_, ih others⟩
      obtain ⟨i, -, index, -⟩ := (mem_unfixedFrom others).mp member
      simp only [index]
      omega
    · exact ih others

/-- The ReLU at a position is unfixed, and these are the bounds of its input. -/
def Unfixed (q : Query Extended) (s : Store Extended) (t : Tolerance Extended) (index : Nat)
    (bounds : Interval Extended) : Prop :=
  ∃ r, q.relus[index]? = some r ∧ r.phase s t = .ok .unfixed ∧ s.interval r.b = .ok bounds

/-- An unfixed ReLU that a heuristic finds at least as good as all unfixed ones, and the first one
of that kind. -/
structure Best (h : BranchingHeuristic) (q : Query Extended) (s : Store Extended)
    (t : Tolerance Extended) (index : Nat) (bounds : Interval Extended) : Prop where
  unfixed : Unfixed q s t index bounds
  best : ∀ j other, Unfixed q s t j other → h.AtLeast bounds other
  first : ∀ j other, Unfixed q s t j other → j < index → ¬ h.AtLeast other bounds

theorem select_spec (h : BranchingHeuristic) (known : q.size ≤ s.size) :
    ∃ selected, h.select q s t = .ok selected ∧
      (selected = none ↔ ∀ index bounds, ¬ Unfixed q s t index bounds) ∧
      ∀ index ∈ selected, ∃ bounds, h.Best q s t index bounds := by
  have inside : ∀ r ∈ q.relus, r.b < s.size ∧ r.f < s.size := fun r member =>
    ⟨(q.relus_known r member).1.trans_le known, (q.relus_known r member).2.trans_le known⟩
  obtain ⟨unfixed, run, -⟩ := unfixedFrom_total t inside 0
  have listed : ∀ index bounds, ⟨index, bounds⟩ ∈ unfixed ↔ Unfixed q s t index bounds := by
    intro index bounds
    rw [mem_unfixedFrom run]
    simp only [Nat.zero_add, exists_and_left, exists_eq_left', Unfixed]
  refine ⟨_, bind_eq_ok.mpr ⟨unfixed, run, rfl⟩, ?_, ?_⟩
  · simp only [Option.map_eq_none_iff, firstBest?_eq_none, ← listed, List.eq_nil_iff_forall_not_mem]
    exact ⟨fun none index bounds => none ⟨index, bounds⟩, fun none ⟨index, bounds⟩ => none index bounds⟩
  · intro index chosen
    obtain ⟨⟨index, bounds⟩, best, rfl⟩ := Option.map_eq_some_iff.mp chosen
    obtain ⟨earlier, later, shape, before, all⟩ := firstBest?_spec
      (fun x y => h.AtLeast x.bounds y.bounds) AtLeast.trans
      (fun x y => h.atLeast_total x.bounds y.bounds) h.prefers_iff best
    refine ⟨bounds, (listed index bounds).mp (firstBest?_mem best),
      fun j other unfixed => all _ ((listed j other).mpr unfixed), fun j other unfixed less => ?_⟩
    have ascending := unfixedFrom_ascending run
    rw [shape, List.pairwise_append, List.pairwise_cons] at ascending
    -- What comes after the chosen one has a greater position.
    have member := (listed j other).mpr unfixed
    rw [shape] at member
    rcases List.mem_append.mp member with earlier | here
    · exact before _ earlier
    · rcases List.mem_cons.mp here with same | later
      · exact absurd (congrArg Candidate.index same) less.ne
      · exact absurd (ascending.2.1.1 _ later) less.asymm

theorem Unfixed.unique {index : Nat} {bounds other : Interval Extended}
    (unfixed : Unfixed q s t index bounds) (unfixed' : Unfixed q s t index other) :
    bounds = other := by
  obtain ⟨r, found, -, read⟩ := unfixed
  obtain ⟨r', found', -, read'⟩ := unfixed'
  obtain rfl := Option.some.inj (found.symm.trans found')
  exact Except.ok.inj (read.symm.trans read')

section Phase

variable {epsilon : ℚ} (tolerance : t.epsilon = finite epsilon) (positive : 0 ≤ epsilon)
include tolerance positive

theorem Unfixed.straddles {index : Nat} {l u : ℚ}
    (unfixed : Unfixed q s t index ⟨finite l, finite u⟩) : l < 0 ∧ 0 < u := by
  obtain ⟨r, -, phased, read⟩ := unfixed
  obtain ⟨input, held, phased⟩ := bind_eq_ok.mp phased
  obtain ⟨output, -, phased⟩ := bind_eq_ok.mp phased
  obtain rfl := Except.ok.inj (read.symm.trans held)
  replace phased := Except.ok.inj phased
  unfold Relu.phaseWithin at phased
  split at phased
  · cases phased
  next notActive =>
    split at phased
    · cases phased
    next notInactive =>
      simp only [Bool.or_eq_true, not_or, Tolerance.ge_zero tolerance positive,
        Tolerance.le_zero tolerance positive, le_finite, not_le] at notActive notInactive
      constructor <;> linarith

theorem Unfixed.balanced {index : Nat} {bounds : Interval Extended}
    (unfixed : Unfixed q s t index bounds) (bounded : bounds.Bounded) :
    Scalar.abs bounds.polarity < 1 := by
  obtain ⟨l, u, rfl⟩ := bounded
  obtain ⟨below, above⟩ := unfixed.straddles tolerance positive
  have wide : 0 < u - l := by linarith
  rw [Interval.polarity_bounded, if_neg (by linarith), abs_finite, one_eq, lt_finite, abs_div,
    abs_of_pos wide, div_lt_one wide, abs_lt]
  constructor <;> linarith

end Phase

/-- A heuristic selects a ReLU unless none is unfixed, and the one that it selects is the first among
the best, by the lengths of bounded input intervals or by their sums over their lengths. By
polarity, a ReLU with a bounded input comes before any with an unbounded one. -/
theorem select_best (h : BranchingHeuristic) (known : q.size ≤ s.size) {epsilon : Extended}
    (tolerance : Tolerance.ofEpsilon epsilon = .ok t) :
    ∃ selected, h.select q s t = .ok selected ∧
      (selected = none ↔ ∀ index bounds, ¬ Unfixed q s t index bounds) ∧
      (∀ index ∈ selected, ∃ bounds, h.Best q s t index bounds) ∧
      (∀ l u : ℚ, Interval.width ⟨finite l, finite u⟩ = finite (u - l) ∧
        Interval.polarity ⟨finite l, finite u⟩ =
          finite (if u ≤ l then 1 else (l + u) / (u - l))) ∧
      (∀ index bounds, Unfixed q s t index bounds →
        (bounds.Bounded → Scalar.abs bounds.polarity < 1) ∧
        (¬ bounds.Bounded → Scalar.abs bounds.polarity = 1 ∧ bounds.width = infinity)) ∧
      (h = .polarity → ∀ index ∈ selected, ∀ bounds, Unfixed q s t index bounds → ¬ bounds.Bounded →
        ∀ j other, Unfixed q s t j other → ¬ other.Bounded) := by
  obtain ⟨rfl, r, rfl, positive⟩ := Tolerance.ofEpsilon_valid tolerance
  obtain ⟨selected, run, none, best⟩ := h.select_spec known
  refine ⟨selected, run, none, best,
    fun l u => ⟨Interval.width_bounded l u, Interval.polarity_bounded l u⟩,
    fun index bounds unfixed => ⟨unfixed.balanced rfl positive,
      fun free => ⟨Interval.imbalance_unbounded free, Interval.width_unbounded free⟩⟩, ?_⟩
  rintro rfl index chosen bounds unfixed free j other unfixed' bounded
  obtain ⟨same, chosen⟩ := best index chosen
  obtain rfl := chosen.unfixed.unique unfixed
  have least := chosen.best j other unfixed'
  rw [AtLeast, Interval.imbalance_unbounded free] at least
  exact not_lt_of_le least (unfixed'.balanced rfl positive bounded)

/-- One ReLU is fixed, and the others are unfixed. With bounded inputs two of them are the widest and
two the most balanced, neither of them the first; an unbounded one is wider than all others. -/
theorem select_best_tied :
    let query : Query Extended := { Query.unconstrained 10 with
      relus := [⟨0, 1⟩, ⟨2, 3⟩, ⟨4, 5⟩, ⟨6, 7⟩, ⟨8, 9⟩]
      relus_known := by decide }
    let store := fun fourth : Interval Extended =>
      { Store.new ⟨finite 0⟩ with
        cells := ([⟨1, 2⟩, .all, ⟨finite (-1), finite (3 / 2)⟩, .all, ⟨finite (-1), finite 3⟩, .all,
          fourth, .all, ⟨finite (-1), finite 1⟩, .all].map (⟨·, false, false⟩)).toArray }
    let bounded := store ⟨finite (-2), finite 2⟩
    let unbounded := store ⟨negInfinity, finite 2⟩
    query.size ≤ bounded.size ∧ query.size ≤ unbounded.size ∧
      Tolerance.ofEpsilon (finite 0) = .ok ⟨finite 0⟩ ∧
      widestInterval.select query bounded ⟨finite 0⟩ = .ok (some 2) ∧
      widestInterval.Best query bounded ⟨finite 0⟩ 2 ⟨finite (-1), finite 3⟩ ∧
      Interval.width ⟨finite (-1), finite 3⟩ = finite (3 - -1) ∧
      polarity.select query bounded ⟨finite 0⟩ = .ok (some 3) ∧
      polarity.Best query bounded ⟨finite 0⟩ 3 ⟨finite (-2), finite 2⟩ ∧
      widestInterval.select query unbounded ⟨finite 0⟩ = .ok (some 3) ∧
      widestInterval.Best query unbounded ⟨finite 0⟩ 3 ⟨negInfinity, finite 2⟩ ∧
      polarity.select query unbounded ⟨finite 0⟩ = .ok (some 4) ∧
      polarity.Best query unbounded ⟨finite 0⟩ 4 ⟨finite (-1), finite 1⟩ := by
  intro query store bounded unbounded
  have known : query.size ≤ bounded.size := by decide
  have known' : query.size ≤ unbounded.size := by decide
  have tolerance : Tolerance.ofEpsilon (finite 0) = .ok ⟨finite 0⟩ := if_pos (by decide +kernel)
  have chosen (h : BranchingHeuristic) {s : Store Extended} (known : query.size ≤ s.size)
      {index : Nat} {r : Relu} {bounds : Interval Extended}
      (evaluated : h.select query s ⟨finite 0⟩ = .ok (some index))
      (found : query.relus[index]? = some r) (read : s.interval r.b = .ok bounds) :
      h.Best query s ⟨finite 0⟩ index bounds := by
    obtain ⟨selected, run, -, best, -⟩ := select_best h known tolerance
    obtain rfl := Except.ok.inj (run.symm.trans evaluated)
    obtain ⟨same, best⟩ := best index rfl
    obtain ⟨r', found', -, read'⟩ := best.unfixed
    obtain rfl := Option.some.inj (found.symm.trans found')
    obtain rfl := Except.ok.inj (read.symm.trans read')
    exact best
  have widest : widestInterval.select query bounded ⟨finite 0⟩ = .ok (some 2) := by decide +kernel
  have balanced : polarity.select query bounded ⟨finite 0⟩ = .ok (some 3) := by decide +kernel
  have widest' : widestInterval.select query unbounded ⟨finite 0⟩ = .ok (some 3) := by decide +kernel
  have balanced' : polarity.select query unbounded ⟨finite 0⟩ = .ok (some 4) := by decide +kernel
  obtain ⟨_, -, -, -, measured, -⟩ := select_best widestInterval known tolerance
  exact ⟨known, known', tolerance, widest, chosen _ known widest rfl rfl, (measured _ _).1, balanced,
    chosen _ known balanced rfl rfl, widest', chosen _ known' widest' rfl rfl, balanced',
    chosen _ known' balanced' rfl rfl⟩

end BranchingHeuristic

end ReluSolver
