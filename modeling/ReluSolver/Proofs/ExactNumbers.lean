import Mathlib.Algebra.Order.Field.Rat
import Mathlib.Tactic.Linarith
import ReluSolver.Number.Extended
import ReluSolver.Number.Interval
import ReluSolver.Number.Tolerance

/-! Exact arithmetic computes on rationals. An operation whose arguments are
rationals gives the rational result, and the tolerant comparisons of rationals
are inequalities between them. -/

namespace ReluSolver

namespace Extended

/-- The rational that a number is; an infinite or undefined one has none. -/
def toRat : Extended → ℚ
  | finite x => x
  | _ => 0

@[simp] theorem toRat_finite (x : ℚ) : (finite x).toRat = x := rfl

theorem ofNat_eq (n : Nat) : (OfNat.ofNat n : Extended) = finite n := by
  change finite (Rat.ofScientific n false 0) = finite n
  simp [Rat.ofScientific_false_def]

@[simp] theorem zero_eq : (0 : Extended) = finite 0 := by
  simpa using ofNat_eq 0

@[simp] theorem one_eq : (1 : Extended) = finite 1 := by
  simpa using ofNat_eq 1

@[simp] theorem two_eq : (2 : Extended) = finite 2 := by
  simpa using ofNat_eq 2

@[simp] theorem neg_finite (x : ℚ) : -finite x = finite (-x) := rfl

@[simp] theorem add_finite (x y : ℚ) : finite x + finite y = finite (x + y) := rfl

@[simp] theorem sub_finite (x y : ℚ) : finite x - finite y = finite (x - y) := by
  rw [sub_eq_add_neg]
  rfl

@[simp] theorem mul_finite (x y : ℚ) : finite x * finite y = finite (x * y) := rfl

theorem div_finite (x : ℚ) {y : ℚ} (nonzero : y ≠ 0) : finite x / finite y = finite (x / y) := by
  change Extended.div _ _ = _
  simp [Extended.div, nonzero]

@[simp] theorem beq_finite (x y : ℚ) : (finite x == finite y) = decide (x = y) := rfl

@[simp] theorem lt_finite {x y : ℚ} : finite x < finite y ↔ x < y := by
  change less _ _ = true ↔ _
  simp [less]

@[simp] theorem le_finite {x y : ℚ} : finite x ≤ finite y ↔ x ≤ y := by
  change (less _ _ || same _ _) = true ↔ _
  simp [less, same, le_iff_lt_or_eq]

@[simp] theorem abs_finite (x : ℚ) : Scalar.abs (finite x) = finite |x| := by
  change finite (if x < 0 then -x else x) = finite |x|
  congr 1
  split
  next negative => exact (abs_of_neg negative).symm
  next other => exact (abs_of_nonneg (not_lt.mp other)).symm

@[simp] theorem isFinite_finite (x : ℚ) : Scalar.isFinite (finite x) = true := rfl

@[simp] theorem isUndefined_finite (x : ℚ) : Scalar.isUndefined (finite x) = false := by
  simp [Scalar.isUndefined]

theorem isFinite_iff {e : Extended} : Scalar.isFinite e = true ↔ ∃ x, e = finite x := by
  constructor
  · intro bounded
    cases e with
    | finite x => exact ⟨x, rfl⟩
    | negInfinity | infinity | undefined => exact absurd bounded (by decide)
  · rintro ⟨x, rfl⟩
    rfl

@[simp] theorem max_finite (x y : ℚ) : Scalar.max (finite x) (finite y) = finite (max x y) := by
  simp only [Scalar.max, isUndefined_finite, lt_finite, Bool.false_eq_true, if_false]
  split
  next less => rw [max_eq_right less.le]
  next other => rw [max_eq_left (not_lt.mp other)]

@[simp] theorem min_finite (x y : ℚ) : Scalar.min (finite x) (finite y) = finite (min x y) := by
  simp only [Scalar.min, isUndefined_finite, lt_finite, Bool.false_eq_true, if_false]
  split
  next less => rw [min_eq_right less.le]
  next other => rw [min_eq_left (not_lt.mp other)]

theorem not_le_undefined {e : Extended} : ¬ e ≤ undefined := by
  cases e <;> exact Bool.false_ne_true

theorem not_undefined_le {e : Extended} : ¬ undefined ≤ e := by
  cases e <;> exact Bool.false_ne_true

theorem negInfinity_le_finite (x : ℚ) : negInfinity ≤ finite x := rfl

theorem finite_le_infinity (x : ℚ) : finite x ≤ infinity := rfl

theorem not_infinity_le_finite {x : ℚ} : ¬ infinity ≤ finite x := Bool.false_ne_true

theorem not_finite_le_negInfinity {x : ℚ} : ¬ finite x ≤ negInfinity := Bool.false_ne_true

protected theorem le_trans {a b c : Extended} (first : a ≤ b) (second : b ≤ c) : a ≤ c := by
  cases a <;> cases b <;> cases c <;>
    first
    | rfl
    | exact absurd first Bool.false_ne_true
    | exact absurd second Bool.false_ne_true
    | exact le_finite.mpr ((le_finite.mp first).trans (le_finite.mp second))

theorem le_finite_cases {e : Extended} {x : ℚ} (below : e ≤ finite x) :
    e = negInfinity ∨ ∃ r, e = finite r ∧ r ≤ x := by
  cases e with
  | negInfinity => exact .inl rfl
  | finite r => exact .inr ⟨r, rfl, le_finite.mp below⟩
  | infinity => exact absurd below not_infinity_le_finite
  | undefined => exact absurd below not_undefined_le

theorem finite_le_cases {e : Extended} {x : ℚ} (above : finite x ≤ e) :
    e = infinity ∨ ∃ r, e = finite r ∧ x ≤ r := by
  cases e with
  | negInfinity => exact absurd above not_finite_le_negInfinity
  | finite r => exact .inr ⟨r, rfl, le_finite.mp above⟩
  | infinity => exact .inl rfl
  | undefined => exact absurd above not_le_undefined

theorem foldl_add_finite (values : List ℚ) (start : ℚ) :
    (values.map finite).foldl (· + ·) (finite start) = finite (start + values.sum) := by
  induction values generalizing start with
  | nil => simp
  | cons value rest ih =>
    simp only [List.map_cons, List.foldl_cons, add_finite, ih, List.sum_cons, add_assoc]

@[simp] theorem sum_finite (values : List ℚ) :
    Scalar.sum (values.map finite) = finite values.sum := by
  simpa [Scalar.sum] using foldl_add_finite values 0

theorem sum_map_finite {ι : Type} {items : List ι} {f : ι → Extended} {g : ι → ℚ}
    (each : ∀ i ∈ items, f i = finite (g i)) :
    Scalar.sum (items.map f) = finite (items.map g).sum := by
  rw [← sum_finite, List.map_map]
  exact congrArg _ (List.map_congr_left each)

end Extended

open Extended in
def Denotes {m : Nat} (v : Vector Extended m) (x : Fin m → ℚ) : Prop :=
  ∀ i : Fin m, getElem v i i.isLt = finite (x i)

namespace Interval

open Extended

structure Contains (i : Interval Extended) (x : ℚ) : Prop where
  lower : i.lower ≤ finite x
  upper : finite x ≤ i.upper

/-- The lower end is no more than `high`, and the upper one no less than `low`. -/
structure Spans (i : Interval Extended) (low high : ℚ) : Prop where
  lower : i.lower ≤ finite high
  upper : finite low ≤ i.upper

theorem Contains.spans {i : Interval Extended} {low high x : ℚ} (inside : i.Contains x)
    (below : low ≤ x) (above : x ≤ high) : i.Spans low high :=
  ⟨Extended.le_trans inside.lower (le_finite.mpr above),
    Extended.le_trans (le_finite.mpr below) inside.upper⟩

theorem all_contains (x : ℚ) : Interval.all.Contains x :=
  ⟨negInfinity_le_finite x, finite_le_infinity x⟩

theorem midpoint_finite (i : Interval Extended) : Scalar.isFinite i.midpoint = true := by
  unfold midpoint
  split
  next lower upper =>
    obtain ⟨l, shape⟩ := isFinite_iff.mp lower
    obtain ⟨u, shape'⟩ := isFinite_iff.mp upper
    rw [shape, shape', two_eq, div_finite _ (by norm_num), div_finite _ (by norm_num), add_finite]
    rfl
  next lower _ => exact lower
  next upper => exact upper
  next => rw [zero_eq]; rfl

end Interval

namespace Tolerance

open Extended

/-- Numbers compare as they are. -/
def exact : Tolerance Extended := ⟨0⟩

variable {t : Tolerance Extended} {epsilon : ℚ}

theorem isZero_finite (same : t.epsilon = finite epsilon) {x : ℚ} :
    t.isZero (finite x) = true ↔ |x| ≤ epsilon := by
  simp [isZero, same]

theorem isPositive_finite (same : t.epsilon = finite epsilon) {x : ℚ} :
    t.isPositive (finite x) = true ↔ epsilon < x := by
  simp [isPositive, same]

theorem areEqual_finite (same : t.epsilon = finite epsilon) (positive : 0 ≤ epsilon) {x y : ℚ} :
    t.areEqual (finite x) (finite y) = true ↔ |x - y| ≤ epsilon := by
  simp only [areEqual, same, beq_finite, sub_finite, abs_finite, le_finite, Bool.or_eq_true,
    decide_eq_true_eq, or_iff_right_iff_imp]
  rintro rfl
  simpa using positive

theorem ge_finite (same : t.epsilon = finite epsilon) (positive : 0 ≤ epsilon) {x y : ℚ} :
    t.ge (finite x) (finite y) = true ↔ y ≤ x + epsilon := by
  simp only [ge, same, beq_finite, sub_finite, neg_finite, le_finite, Bool.or_eq_true,
    decide_eq_true_eq]
  constructor
  · rintro (rfl | apart)
    · linarith
    · linarith
  · intro near
    exact .inr (by linarith)

/-- Ends that cross by no more than the tolerance are not taken for those of an empty
interval. -/
theorem ge_of_spans {i : Interval Extended} {low high : ℚ} (spans : i.Spans low high)
    (slack : finite (high - low) ≤ t.epsilon) : t.ge i.upper i.lower = true := by
  have small : -t.epsilon ≤ finite (low - high) := by
    rcases finite_le_cases slack with shape | ⟨e, shape, wide⟩ <;> rw [shape]
    · rfl
    · simpa using by linarith
  have apart : finite (low - high) ≤ i.upper - i.lower := by
    rcases le_finite_cases spans.lower with lower | ⟨l, lower, below⟩ <;>
      rcases finite_le_cases spans.upper with upper | ⟨u, upper, above⟩ <;>
      rw [lower, upper]
    · rfl
    · rfl
    · rfl
    · simpa using by linarith
  simp only [ge, Bool.or_eq_true, decide_eq_true_eq]
  exact .inr (Extended.le_trans small apart)

theorem ge_of_contains (nonnegative : 0 ≤ t.epsilon) {i : Interval Extended} {x : ℚ}
    (inside : i.Contains x) : t.ge i.upper i.lower = true :=
  ge_of_spans (inside.spans le_rfl le_rfl) (by rwa [sub_self, ← zero_eq])

theorem ofEpsilon_valid {epsilon : Extended} (made : ofEpsilon epsilon = .ok t) :
    t = ⟨epsilon⟩ ∧ ∃ r : ℚ, epsilon = finite r ∧ 0 ≤ r := by
  unfold ofEpsilon at made
  split at made
  next valid =>
    obtain ⟨rational, positive⟩ := Bool.and_eq_true_iff.mp valid
    obtain ⟨r, rfl⟩ := isFinite_iff.mp rational
    exact ⟨(Except.ok.inj made).symm, r, rfl, by simpa [zero_eq] using positive⟩
  · cases made

end Tolerance

end ReluSolver
