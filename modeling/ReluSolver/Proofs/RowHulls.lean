import Mathlib.Algebra.Order.Field.Basic
import Mathlib.Data.Set.NAry
import Mathlib.Order.Bounds.Basic
import Mathlib.Tactic.FieldSimp
import Mathlib.Tactic.Ring
import ReluSolver.Deduction.Row
import ReluSolver.Proofs.NumberOrder

/-! What a row offers to its variables is the best that it can say about them. Computing
with the ends of intervals gives the ends of the sets of values that the terms of a row
take, and taking a term out of the range of a row is adding up the others. -/

namespace ReluSolver

open Extended

namespace Extended

variable {place : WithBot (WithTop ℚ)}

theorem eq_bot_of_position (less : ∀ bound, ∃ x ≤ bound, place ≤ (finite x).position) : place = ⊥ := by
  induction place with
  | bot => rfl
  | coe place =>
    induction place with
    | top =>
      obtain ⟨x, -, above⟩ := less 0
      simp [position] at above
    | coe q =>
      obtain ⟨x, beyond, above⟩ := less (q - 1)
      have := WithTop.coe_le_coe.mp (WithBot.coe_le_coe.mp above)
      linarith

theorem eq_top_of_position (more : ∀ bound, ∃ x ≥ bound, (finite x).position ≤ place) :
    place = ((⊤ : WithTop ℚ) : WithBot (WithTop ℚ)) := by
  induction place with
  | bot =>
    obtain ⟨x, -, below⟩ := more 0
    simp [position] at below
  | coe place =>
    induction place with
    | top => rfl
    | coe q =>
      obtain ⟨x, beyond, below⟩ := more (q + 1)
      have := WithTop.coe_le_coe.mp (WithBot.coe_le_coe.mp below)
      linarith

theorem toRat_of_not_isFinite {e : Extended} (unknown : Scalar.isFinite e = false) :
    e.toRat = 0 := by
  cases e with
  | finite r => simp at unknown
  | negInfinity | infinity | undefined => rfl

protected theorem add_assoc (a b c : Extended) : a + b + c = a + (b + c) := by
  cases a <;> cases b <;> cases c <;> first | rfl | exact congrArg finite (add_assoc _ _ _)

protected theorem add_zero (a : Extended) : a + -0 = a := by
  rw [zero_eq]
  cases a <;> first | rfl | simp

protected theorem zero_add (a : Extended) : -0 + a = a := by
  rw [zero_eq]
  cases a <;> first | rfl | simp

theorem sum_nil : Scalar.sum ([] : List Extended) = finite 0 := sum_finite []

theorem sum_cons (e : Extended) (ends : List Extended) :
    Scalar.sum (e :: ends) = e + Scalar.sum ends := by
  have folded : ∀ (ends : List Extended) (a b : Extended),
      ends.foldl (· + ·) (a + b) = a + ends.foldl (· + ·) b := by
    intro ends
    induction ends with
    | nil => exact fun _ _ => rfl
    | cons c rest ih =>
      intro a b
      rw [List.foldl_cons, List.foldl_cons, Extended.add_assoc, ih]
  unfold Scalar.sum
  rw [List.foldl_cons, Extended.zero_add, ← folded, Extended.add_zero]

end Extended

namespace Side

def opposite : Side → Side
  | .lower => .upper
  | .upper => .lower

/-- The number farthest out. -/
def far : Side → Extended
  | .lower => negInfinity
  | .upper => infinity

/-- The first number is as far out as the second one. -/
def Outer : Side → ℚ → ℚ → Prop
  | .lower => (· ≤ ·)
  | .upper => (· ≥ ·)

/-- The side that multiplying with a number other than zero takes to the given one. -/
def turned (side : Side) (k : ℚ) : Side := if 0 < k then side else side.opposite

/-- A rational, or the number farthest out on that side. -/
def Allows (side : Side) (e : Extended) : Prop := (∃ r, e = finite r) ∨ e = side.far

variable {side : Side} {a b c d k : ℚ}

theorem Outer.add (first : side.Outer a b) (second : side.Outer c d) : side.Outer (a + c) (b + d) := by
  cases side <;> exact add_le_add first second

theorem outer_refl (a : ℚ) : side.Outer a a := by
  cases side <;> exact le_refl a

theorem Outer.mul (outer : (side.turned k).Outer a b) : side.Outer (k * a) (k * b) := by
  unfold turned at outer
  split at outer
  next positive =>
    cases side <;> exact mul_le_mul_of_nonneg_left outer positive.le
  next other =>
    cases side <;> exact mul_le_mul_of_nonpos_left outer (not_lt.mp other)

theorem Outer.sub (outer : side.opposite.Outer a b) (c : ℚ) : side.Outer (c - a) (c - b) := by
  cases side <;> exact sub_le_sub_left outer c

theorem Outer.div (outer : (side.turned k).Outer a b) : side.Outer (a / k) (b / k) := by
  unfold turned at outer
  split at outer
  next positive =>
    cases side <;> exact div_le_div_of_nonneg_right outer positive.le
  next other =>
    cases side <;> exact div_le_div_of_nonpos_of_le (not_lt.mp other) outer

theorem Allows.image {last : Side} {g : Extended → Extended} {e : Extended} (allows : side.Allows e)
    (each : ∀ r, ∃ q, g (finite r) = finite q) (far : g side.far = last.far) : last.Allows (g e) := by
  rcases allows with ⟨r, rfl⟩ | rfl
  · exact .inl (each r)
  · exact .inr far

/-- A sum of what a side allows is the far number if one of them is, and else the rational sum. -/
theorem sum_allowed {ends : List Extended} (allowed : ∀ e ∈ ends, side.Allows e) :
    Scalar.sum ends = if ends.countP (!Scalar.isFinite ·) = 0 then finite (ends.map toRat).sum
      else side.far := by
  induction ends with
  | nil => exact sum_nil
  | cons e rest ih =>
    obtain ⟨here, later⟩ := List.forall_mem_cons.mp allowed
    rw [sum_cons, ih later]
    rcases here with ⟨r, rfl⟩ | rfl
    · rw [List.countP_cons_of_neg (by simp)]
      split
      · simp
      · cases side <;> rfl
    · have unbounded : Scalar.isFinite side.far = false := by cases side <;> rfl
      rw [List.countP_cons_of_pos (by simp [unbounded]), if_neg (Nat.succ_ne_zero _)]
      split
      · cases side <;> rfl
      · cases side <;> rfl

theorem mul_far (nonzero : k ≠ 0) : finite k * (side.turned k).far = side.far := by
  unfold turned
  split
  next positive =>
    have sign : Extended.signedInfinity k = infinity := if_pos positive
    cases side
    · exact congrArg Extended.neg sign
    · exact sign
  next other =>
    have negative : k < 0 := lt_of_le_of_ne (not_lt.mp other) nonzero
    have sign : Extended.signedInfinity k = negInfinity := (if_neg other).trans (if_pos negative)
    cases side
    · exact sign
    · exact congrArg Extended.neg sign

theorem sub_far (c : ℚ) : finite c - side.opposite.far = side.far := by
  cases side <;> rfl

theorem div_far (nonzero : k ≠ 0) : (side.turned k).far / finite k = side.far := by
  unfold turned
  split
  next positive =>
    have sign : ¬ k < 0 := not_lt.mpr positive.le
    cases side
    · exact if_neg sign
    · exact if_neg sign
  next other =>
    have negative : k < 0 := lt_of_le_of_ne (not_lt.mp other) nonzero
    cases side
    · exact if_pos negative
    · exact if_pos negative

/-- The end of a set of values on one side: the outermost value, unless they go on forever. -/
def IsEnd (side : Side) (e : Extended) (values : Set ℚ) : Prop :=
  (∃ r ∈ values, e = finite r ∧ ∀ x ∈ values, side.Outer r x) ∨
    e = side.far ∧ ∀ bound, ∃ x ∈ values, side.Outer x bound

namespace IsEnd

variable {side : Side} {e e' : Extended} {S T : Set ℚ}

theorem nonempty (isEnd : side.IsEnd e S) : S.Nonempty := by
  rcases isEnd with ⟨r, member, -⟩ | ⟨-, unbounded⟩
  · exact ⟨r, member⟩
  · obtain ⟨x, member, -⟩ := unbounded 0
    exact ⟨x, member⟩

theorem zero : side.IsEnd (finite 0) {0} := by
  refine .inl ⟨0, rfl, rfl, ?_⟩
  rintro x rfl
  exact outer_refl 0

private theorem add_far (isEnd : side.IsEnd e S) : e + side.far = side.far ∧ side.far + e = side.far := by
  rcases isEnd with ⟨r, -, rfl, -⟩ | ⟨rfl, -⟩ <;> cases side <;> exact ⟨rfl, rfl⟩

private theorem add_unbounded (isEnd : side.IsEnd e S)
    (unbounded : ∀ bound, ∃ y ∈ T, side.Outer y bound) (bound : ℚ) :
    ∃ z ∈ Set.image2 (· + ·) S T, side.Outer z bound := by
  obtain ⟨x, member⟩ := isEnd.nonempty
  obtain ⟨y, other, far⟩ := unbounded (bound - x)
  refine ⟨x + y, ⟨x, member, y, other, rfl⟩, ?_⟩
  simpa using (outer_refl x).add far

theorem add (first : side.IsEnd e S) (second : side.IsEnd e' T) :
    side.IsEnd (e + e') (Set.image2 (· + ·) S T) := by
  rcases second with ⟨r', member', rfl, outermost'⟩ | ⟨rfl, unbounded'⟩
  · rcases first with ⟨r, member, rfl, outermost⟩ | ⟨rfl, unbounded⟩
    · refine .inl ⟨r + r', ⟨r, member, r', member', rfl⟩, rfl, ?_⟩
      rintro _ ⟨x, inside, y, inside', rfl⟩
      exact (outermost x inside).add (outermost' y inside')
    · have last : side.IsEnd (finite r') T := .inl ⟨r', member', rfl, outermost'⟩
      refine .inr ⟨last.add_far.2, fun bound => ?_⟩
      obtain ⟨z, ⟨y, other, x, member, rfl⟩, far⟩ := last.add_unbounded unbounded bound
      exact ⟨x + y, ⟨x, member, y, other, rfl⟩, add_comm x y ▸ far⟩
  · exact .inr ⟨first.add_far.1, first.add_unbounded unbounded'⟩

theorem image {last : Side} {g : Extended → Extended} {f b : ℚ → ℚ} (isEnd : side.IsEnd e S)
    (each : ∀ r, g (finite r) = finite (f r)) (far : g side.far = last.far)
    (outer : ∀ x y, side.Outer x y → last.Outer (f x) (f y)) (onto : ∀ x, f (b x) = x) :
    last.IsEnd (g e) (f '' S) := by
  rcases isEnd with ⟨r, member, rfl, outermost⟩ | ⟨rfl, unbounded⟩
  · refine .inl ⟨f r, Set.mem_image_of_mem f member, each r, ?_⟩
    rintro _ ⟨x, inside, rfl⟩
    exact outer r x (outermost x inside)
  · refine .inr ⟨far, fun bound => ?_⟩
    obtain ⟨x, member, beyond⟩ := unbounded (b bound)
    exact ⟨f x, Set.mem_image_of_mem f member, onto bound ▸ outer x _ beyond⟩

end IsEnd

end Side

namespace Interval

def onSide {α : Type} (i : Interval α) : Side → α
  | .lower => i.lower
  | .upper => i.upper

/-- The lower end is not above all numbers, and the upper one not below all of them. -/
structure Proper (i : Interval Extended) : Prop where
  defined : i.Defined
  lower : i.lower ≠ infinity
  upper : i.upper ≠ negInfinity

instance (i : Interval Extended) : Decidable i.Proper :=
  decidable_of_iff ((i.lower ≠ undefined ∧ i.upper ≠ undefined) ∧ i.lower ≠ infinity ∧ i.upper ≠ negInfinity)
    ⟨fun ⟨defined, lower, upper⟩ => ⟨defined, lower, upper⟩,
      fun ⟨defined, lower, upper⟩ => ⟨defined, lower, upper⟩⟩

/-- The ends are the infimum and the supremum of some values, among all numbers. -/
structure IsHull (i : Interval Extended) (values : Set ℚ) : Prop where
  defined : i.Defined
  lower : IsGLB ((fun x => (finite x).position) '' values) i.lower.position
  upper : IsLUB ((fun x => (finite x).position) '' values) i.upper.position

variable {i : Interval Extended} {values : Set ℚ}

theorem proper_iff : i.Proper ↔ ∀ side : Side, side.Allows (i.onSide side) := by
  have lower : Side.lower.Allows i.lower ↔ i.lower ≠ undefined ∧ i.lower ≠ infinity := by
    cases i.lower <;> simp [Side.Allows, Side.far]
  have upper : Side.upper.Allows i.upper ↔ i.upper ≠ undefined ∧ i.upper ≠ negInfinity := by
    cases i.upper <;> simp [Side.Allows, Side.far]
  constructor
  · rintro ⟨⟨definedLower, definedUpper⟩, below, above⟩ side
    cases side with
    | lower => exact lower.mpr ⟨definedLower, below⟩
    | upper => exact upper.mpr ⟨definedUpper, above⟩
  · intro each
    obtain ⟨definedLower, below⟩ := lower.mp (each .lower)
    obtain ⟨definedUpper, above⟩ := upper.mp (each .upper)
    exact ⟨⟨definedLower, definedUpper⟩, below, above⟩

theorem Proper.isEnd (proper : i.Proper) (ordered : i.lower ≤ i.upper) (side : Side) :
    side.IsEnd (i.onSide side) {x | i.Contains x} := by
  have lower : Side.lower.Allows i.lower := proper_iff.mp proper .lower
  have upper : Side.upper.Allows i.upper := proper_iff.mp proper .upper
  obtain ⟨low, high⟩ := i
  dsimp only at lower upper ordered
  cases side with
  | lower =>
    rcases lower with ⟨l, rfl⟩ | rfl
    · exact .inl ⟨l, ⟨le_finite.mpr le_rfl, ordered⟩, rfl, fun x (inside : Contains _ x) =>
        le_finite.mp inside.lower⟩
    · refine .inr ⟨rfl, fun bound => ?_⟩
      rcases upper with ⟨u, rfl⟩ | rfl
      · exact ⟨min u bound, ⟨rfl, le_finite.mpr (min_le_left _ _)⟩, min_le_right u bound⟩
      · exact ⟨bound, ⟨rfl, rfl⟩, Side.outer_refl bound⟩
  | upper =>
    rcases upper with ⟨u, rfl⟩ | rfl
    · exact .inl ⟨u, ⟨ordered, le_finite.mpr le_rfl⟩, rfl, fun x (inside : Contains _ x) =>
        le_finite.mp inside.upper⟩
    · refine .inr ⟨rfl, fun bound => ?_⟩
      rcases lower with ⟨l, rfl⟩ | rfl
      · exact ⟨max l bound, ⟨le_finite.mpr (le_max_left _ _), rfl⟩, le_max_right l bound⟩
      · exact ⟨bound, ⟨rfl, rfl⟩, Side.outer_refl bound⟩

theorem contains_of_isEnd (each : ∀ side : Side, side.IsEnd (i.onSide side) values) {x : ℚ}
    (member : x ∈ values) : i.Contains x := by
  have lower : Side.lower.IsEnd i.lower values := each .lower
  have upper : Side.upper.IsEnd i.upper values := each .upper
  constructor
  · rcases lower with ⟨r, -, same, outermost⟩ | ⟨same, -⟩ <;> rw [same]
    · exact le_finite.mpr (outermost x member)
    · exact negInfinity_le_finite x
  · rcases upper with ⟨r, -, same, outermost⟩ | ⟨same, -⟩ <;> rw [same]
    · exact le_finite.mpr (outermost x member)
    · exact finite_le_infinity x

theorem Contains.proper {x : ℚ} (inside : i.Contains x) : i.Proper := by
  refine proper_iff.mpr fun side => ?_
  cases side with
  | lower =>
    rcases le_finite_cases inside.lower with same | ⟨r, same, -⟩
    · exact .inr same
    · exact .inl ⟨r, same⟩
  | upper =>
    rcases finite_le_cases inside.upper with same | ⟨r, same, -⟩
    · exact .inr same
    · exact .inl ⟨r, same⟩

theorem isHull_of_isEnd (each : ∀ side : Side, side.IsEnd (i.onSide side) values) :
    i.IsHull values := by
  have lower : Side.lower.IsEnd i.lower values := each .lower
  have upper : Side.upper.IsEnd i.upper values := each .upper
  refine ⟨⟨?_, ?_⟩, ?_, ?_⟩
  · rcases lower with ⟨r, -, same, -⟩ | ⟨same, -⟩ <;> simp [same, Side.far]
  · rcases upper with ⟨r, -, same, -⟩ | ⟨same, -⟩ <;> simp [same, Side.far]
  · rcases lower with ⟨r, member, same, outermost⟩ | ⟨same, unbounded⟩ <;> rw [same]
    · refine IsLeast.isGLB ⟨Set.mem_image_of_mem _ member, ?_⟩
      rintro _ ⟨x, inside, rfl⟩
      exact finite_le_position (outermost x inside)
    · refine ⟨fun _ _ => bot_le, fun b below => (eq_bot_of_position fun bound => ?_).le⟩
      obtain ⟨x, member, beyond⟩ := unbounded bound
      exact ⟨x, beyond, below (Set.mem_image_of_mem _ member)⟩
  · rcases upper with ⟨r, member, same, outermost⟩ | ⟨same, unbounded⟩ <;> rw [same]
    · refine IsGreatest.isLUB ⟨Set.mem_image_of_mem _ member, ?_⟩
      rintro _ ⟨x, inside, rfl⟩
      exact finite_le_position (outermost x inside)
    · refine ⟨fun _ _ => le_top, fun b above => (eq_top_of_position fun bound => ?_).ge⟩
      obtain ⟨x, member, beyond⟩ := unbounded bound
      exact ⟨x, beyond, above (Set.mem_image_of_mem _ member)⟩

end Interval

namespace RowRange

variable {k c : ℚ} {i rest : Interval Extended} {values : Set ℚ}

theorem ofTerm_onSide (k : ℚ) (i : Interval Extended) (side : Side) :
    (ofTerm (finite k) i).onSide side = finite k * i.onSide (side.turned k) := by
  unfold ofTerm Side.turned
  simp only [zero_eq, lt_finite]
  split <;> cases side <;> rfl

theorem solveFor_onSide (k c : ℚ) (rest : Interval Extended) (side : Side) :
    (solveFor (finite k) (finite c) rest).onSide side =
      (finite c - rest.onSide (side.turned k).opposite) / finite k := by
  unfold solveFor Side.turned
  simp only [zero_eq, lt_finite]
  split <;> cases side <;> rfl

theorem ofTerm_proper (nonzero : k ≠ 0) (proper : i.Proper) : (ofTerm (finite k) i).Proper := by
  refine Interval.proper_iff.mpr fun side => ?_
  rw [ofTerm_onSide]
  exact (Interval.proper_iff.mp proper _).image (fun r => ⟨k * r, rfl⟩) (Side.mul_far nonzero)

theorem solveFor_proper (nonzero : k ≠ 0) (proper : rest.Proper) :
    (solveFor (finite k) (finite c) rest).Proper := by
  refine Interval.proper_iff.mpr fun side => ?_
  rw [solveFor_onSide]
  refine (Interval.proper_iff.mp proper _).image (g := fun e => (finite c - e) / finite k)
    (fun r => ⟨(c - r) / k, ?_⟩) ?_
  · rw [sub_finite, div_finite _ nonzero]
  · rw [Side.sub_far, Side.div_far nonzero]

theorem ofTerm_isEnd (nonzero : k ≠ 0) (proper : i.Proper) (ordered : i.lower ≤ i.upper) (side : Side) :
    side.IsEnd ((ofTerm (finite k) i).onSide side) ((k * ·) '' {x | i.Contains x}) := by
  rw [ofTerm_onSide]
  exact (proper.isEnd ordered _).image (fun r => rfl) (Side.mul_far nonzero)
    (fun x y outer => outer.mul) fun x => mul_div_cancel₀ x nonzero

theorem solveFor_isEnd (nonzero : k ≠ 0) (each : ∀ side : Side, side.IsEnd (rest.onSide side) values)
    (side : Side) :
    side.IsEnd ((solveFor (finite k) (finite c) rest).onSide side) ((fun y => (c - y) / k) '' values) := by
  rw [solveFor_onSide]
  refine (each _).image (g := fun e => (finite c - e) / finite k) (b := fun x => c - k * x)
    (fun r => ?_) ?_ (fun x y outer => ?_) fun x => ?_
  · rw [sub_finite, div_finite _ nonzero]
  · rw [Side.sub_far, Side.div_far nonzero]
  · exact (outer.sub c).div
  · field_simp
    ring

/-- The range of the sum of some terms, whose ends are added up one by one. -/
def ofSum (terms : List (Addend Extended)) (box : Variable → Interval Extended) : Interval Extended :=
  ⟨Scalar.sum (terms.map fun a => (ofTerm a.coefficient (box a.var)).lower),
    Scalar.sum (terms.map fun a => (ofTerm a.coefficient (box a.var)).upper)⟩

/-- The sums of some terms, for all values of their variables within the bounds. -/
def sums (terms : List (Addend Extended)) (box : Variable → Interval Extended) : Set ℚ :=
  (fun x : Variable → ℚ => (terms.map fun a => a.coefficient.toRat * x a.var).sum) ''
    {x | ∀ a ∈ terms, (box a.var).Contains (x a.var)}

variable {box : Variable → Interval Extended} {terms : List (Addend Extended)}

theorem ofSum_onSide (side : Side) : (ofSum terms box).onSide side =
    Scalar.sum (terms.map fun a => (ofTerm a.coefficient (box a.var)).onSide side) := by
  cases side <;> rfl

/-- The values of different variables are chosen apart from each other. -/
theorem sums_cons {a : Addend Extended} (apart : a.var ∉ terms.map (·.var)) :
    sums (a :: terms) box = Set.image2 (· + ·)
      ((a.coefficient.toRat * ·) '' {x | (box a.var).Contains x}) (sums terms box) := by
  ext y
  constructor
  · rintro ⟨x, inside, rfl⟩
    obtain ⟨here, others⟩ := List.forall_mem_cons.mp inside
    exact ⟨_, ⟨x a.var, here, rfl⟩, _, ⟨x, others, rfl⟩, by simp⟩
  · rintro ⟨_, ⟨value, here, rfl⟩, _, ⟨x, others, rfl⟩, rfl⟩
    have kept : ∀ b ∈ terms, Function.update x a.var value b.var = x b.var := by
      intro b member
      refine Function.update_of_ne (fun same => apart ?_) _ _
      exact List.mem_map.mpr ⟨b, member, same⟩
    refine ⟨Function.update x a.var value, List.forall_mem_cons.mpr ⟨?_, fun b member => ?_⟩, ?_⟩
    · simpa using here
    · rw [kept b member]
      exact others b member
    · have same := List.map_congr_left fun b member =>
        congrArg (b.coefficient.toRat * ·) (kept b member)
      simp only [List.map_cons, List.sum_cons, Function.update_self, same]

section Terms

variable (coefficients : ∀ a ∈ terms, ∃ r : ℚ, r ≠ 0 ∧ a.coefficient = finite r)
  (proper : ∀ a ∈ terms, (box a.var).Proper)
include coefficients proper

theorem ofSum_proper : (ofSum terms box).Proper := by
  refine Interval.proper_iff.mpr fun side => ?_
  have allowed : ∀ e ∈ terms.map fun a => (ofTerm a.coefficient (box a.var)).onSide side,
      side.Allows e := by
    intro e member
    obtain ⟨a, inside, rfl⟩ := List.mem_map.mp member
    obtain ⟨r, nonzero, same⟩ := coefficients a inside
    rw [same]
    exact Interval.proper_iff.mp (ofTerm_proper nonzero (proper a inside)) side
  rw [ofSum_onSide, Side.sum_allowed allowed]
  split
  · exact .inl ⟨_, rfl⟩
  · exact .inr rfl

theorem ofSum_isEnd (distinct : (terms.map (·.var)).Nodup)
    (ordered : ∀ a ∈ terms, (box a.var).lower ≤ (box a.var).upper) (side : Side) :
    side.IsEnd ((ofSum terms box).onSide side) (sums terms box) := by
  rw [ofSum_onSide]
  induction terms with
  | nil =>
    have single : sums [] box = {0} := by
      ext y
      simp [sums]
    rw [single, List.map_nil, sum_nil]
    exact .zero
  | cons a rest ih =>
    obtain ⟨⟨r, nonzero, same⟩, coefficients⟩ := List.forall_mem_cons.mp coefficients
    obtain ⟨here, proper⟩ := List.forall_mem_cons.mp proper
    obtain ⟨between, ordered⟩ := List.forall_mem_cons.mp ordered
    obtain ⟨apart, distinct⟩ := List.nodup_cons.mp distinct
    rw [sums_cons apart, List.map_cons, sum_cons, same, toRat_finite]
    exact (ofTerm_isEnd nonzero here between side).add (ih coefficients proper distinct ordered)

end Terms

end RowRange

namespace CountedSum

def total (ends : List Extended) : CountedSum Extended := ends.foldl add zero

private theorem foldl_add (ends : List Extended) (start : ℚ) (count : Nat) :
    ends.foldl add ⟨Extended.finite start, count⟩ =
      ⟨Extended.finite (start + (ends.map toRat).sum), count + ends.countP (!Scalar.isFinite ·)⟩ := by
  induction ends generalizing start count with
  | nil => simp
  | cons e rest ih =>
    rw [List.foldl_cons]
    cases shape : Scalar.isFinite e with
    | true =>
      obtain ⟨r, rfl⟩ := isFinite_iff.mp shape
      simp only [add, isFinite_finite, if_true, add_finite, ih]
      simp [add_assoc]
    | false =>
      simp only [add, shape, Bool.false_eq_true, if_false, ih]
      simp [toRat_of_not_isFinite shape, shape]
      omega

theorem total_eq (ends : List Extended) :
    total ends = ⟨Extended.finite (ends.map toRat).sum, ends.countP (!Scalar.isFinite ·)⟩ := by
  simpa [total, zero] using foldl_add ends 0 0

theorem total_without {side : Side} {before after : List Extended} {item : Extended}
    (allowed : ∀ e ∈ before ++ item :: after, side.Allows e) :
    (total (before ++ item :: after)).without item side.far = Scalar.sum (before ++ after) := by
  have others : ∀ e ∈ before ++ after, side.Allows e := by
    intro e member
    apply allowed
    rcases List.mem_append.mp member with left | right
    · exact List.mem_append_left _ left
    · exact List.mem_append_right _ (List.mem_cons_of_mem _ right)
  have count : (before ++ item :: after).countP (!Scalar.isFinite ·) =
      (before ++ after).countP (!Scalar.isFinite ·) + if Scalar.isFinite item then 0 else 1 := by
    simp only [List.countP_append, List.countP_cons]
    cases Scalar.isFinite item
    · simp only [Bool.not_false, if_true, Bool.false_eq_true, if_false]
      omega
    · simp
  have total : ((before ++ item :: after).map toRat).sum =
      ((before ++ after).map toRat).sum + item.toRat := by
    simp only [List.map_append, List.map_cons, List.sum_append, List.sum_cons]
    ring
  rw [total_eq, Side.sum_allowed others, count, total]
  -- what is left depends on how many of the other summands are infinite: none, one, or several
  generalize (before ++ after).countP (!Scalar.isFinite ·) = many
  rcases allowed item (by simp) with ⟨r, rfl⟩ | rfl
  · rcases many with _ | _ | many <;> simp [without]
  · have unbounded : Scalar.isFinite side.far = false := by cases side <;> rfl
    have nothing : side.far.toRat = 0 := by cases side <;> rfl
    rcases many with _ | many <;> simp [without, unbounded, nothing]

end CountedSum

namespace Equation

def others (e : Equation Extended) (a : Addend Extended) : List (Addend Extended) :=
  e.addends.filter (·.var != a.var)

/-- The interval that bounds of the other variables allow the variable of one term, computed with the
ends of the intervals. -/
def rangeOf (e : Equation Extended) (box : Variable → Interval Extended) (a : Addend Extended) :
    Interval Extended :=
  RowRange.solveFor a.coefficient e.scalar (RowRange.ofSum (e.others a) box)

/-- The values of the variable of one term, for all values of the other variables within their
bounds. -/
def valuesOf (e : Equation Extended) (box : Variable → Interval Extended) (a : Addend Extended) : Set ℚ :=
  (fun y => (e.right - y) / a.coefficient.toRat) '' RowRange.sums (e.others a) box

variable {e : Equation Extended} (formed : e.WellFormed) {box : Variable → Interval Extended}
  (proper : ∀ b ∈ e.addends, (box b.var).Proper) {a : Addend Extended}
include formed

theorem WellFormed.others_eq {before after : List (Addend Extended)}
    (split : e.addends = before ++ a :: after) : e.others a = before ++ after := by
  have distinct := formed.distinct
  rw [split, List.map_append, List.map_cons] at distinct
  obtain ⟨-, inner, apart⟩ := List.nodup_append.mp distinct
  have left : ∀ b ∈ before, (b.var != a.var) = true := fun b inside =>
    bne_iff_ne.mpr (apart _ (List.mem_map_of_mem inside) _ (by simp))
  have right : ∀ b ∈ after, (b.var != a.var) = true := fun b inside =>
    bne_iff_ne.mpr fun same => (List.nodup_cons.mp inner).1 (same ▸ List.mem_map_of_mem inside)
  rw [others, split, List.filter_append, List.filter_cons_of_neg (by simp), List.filter_eq_self.mpr left,
    List.filter_eq_self.mpr right]

include proper

theorem rangeOf_proper (member : a ∈ e.addends) : (e.rangeOf box a).Proper := by
  obtain ⟨k, nonzero, same⟩ := formed.coefficients a member
  rw [rangeOf, same, formed.scalar_eq]
  refine RowRange.solveFor_proper nonzero (RowRange.ofSum_proper (fun b inside => ?_) fun b inside => ?_)
  · exact formed.coefficients b (List.mem_of_mem_filter inside)
  · exact proper b (List.mem_of_mem_filter inside)

theorem rangeOf_isEnd (member : a ∈ e.addends)
    (ordered : ∀ b ∈ e.others a, (box b.var).lower ≤ (box b.var).upper) (side : Side) :
    side.IsEnd ((e.rangeOf box a).onSide side) (e.valuesOf box a) := by
  have inner : ∀ b ∈ e.others a, b ∈ e.addends := fun b inside => List.mem_of_mem_filter inside
  obtain ⟨k, nonzero, same⟩ := formed.coefficients a member
  rw [rangeOf, valuesOf, same, formed.scalar_eq, toRat_finite]
  refine RowRange.solveFor_isEnd nonzero ?_ side
  exact RowRange.ofSum_isEnd (fun b inside => formed.coefficients b (inner b inside))
    (fun b inside => proper b (inner b inside))
    (formed.distinct.sublist (List.filter_sublist.map _)) ordered

/-- Computing with the ends is exact unless the bounds of another variable cross. Then there are no
values. -/
theorem rangeOf_isHull_iff (member : a ∈ e.addends) : (e.rangeOf box a).IsHull (e.valuesOf box a) ↔
    ∀ b ∈ e.others a, (box b.var).lower ≤ (box b.var).upper := by
  constructor
  · intro hull b inside
    have values : (e.valuesOf box a).Nonempty := by
      -- the infimum of no values is above all numbers, where the lower end never is
      by_contra empty
      have above := hull.lower
      rw [Set.not_nonempty_iff_eq_empty.mp empty, Set.image_empty, isGLB_empty_iff] at above
      have top := above ((⊤ : WithTop ℚ) : WithBot (WithTop ℚ))
      obtain ⟨⟨lower, -⟩, below, -⟩ := rangeOf_proper formed proper member
      cases shape : (e.rangeOf box a).lower with
      | infinity => exact below shape
      | undefined => exact lower shape
      | negInfinity | finite r => simp [shape, position] at top
    obtain ⟨_, y, ⟨x, within, rfl⟩, rfl⟩ := values
    exact Extended.le_trans (within b inside).lower (within b inside).upper
  · exact fun ordered => Interval.isHull_of_isEnd (rangeOf_isEnd formed proper member ordered)

end Equation

namespace RowRange

def ofBox (addends : List (Addend Extended)) (box : Variable → Interval Extended) :
    RowRange Extended :=
  ⟨CountedSum.total (addends.map fun a => (ofTerm a.coefficient (box a.var)).lower),
    CountedSum.total (addends.map fun a => (ofTerm a.coefficient (box a.var)).upper)⟩

end RowRange

/-- Taking a term out of the range of the row gives what adding up the other terms gives. -/
theorem Effort.offer_eq {row : Equation Extended} (formed : row.WellFormed)
    {box : Variable → Interval Extended} (proper : ∀ b ∈ row.addends, (box b.var).Proper)
    {a : Addend Extended} (member : a ∈ row.addends) :
    offer row (RowRange.ofBox row.addends box) a (box a.var) = row.rangeOf box a := by
  obtain ⟨before, after, split⟩ := List.append_of_mem member
  let ends (side : Side) (b : Addend Extended) := (RowRange.ofTerm b.coefficient (box b.var)).onSide side
  have without (side : Side) : (CountedSum.total (row.addends.map (ends side))).without (ends side a)
      side.far = Scalar.sum ((row.others a).map (ends side)) := by
    have allowed : ∀ e ∈ row.addends.map (ends side), side.Allows e := by
      intro e found
      obtain ⟨b, inside, rfl⟩ := List.mem_map.mp found
      obtain ⟨k, nonzero, same⟩ := formed.coefficients b inside
      dsimp only [ends]
      rw [same]
      exact Interval.proper_iff.mp (RowRange.ofTerm_proper nonzero (proper b inside)) side
    rw [formed.others_eq split]
    rw [split, List.map_append, List.map_cons] at allowed ⊢
    rw [List.map_append]
    exact CountedSum.total_without allowed
  unfold offer Equation.rangeOf
  congr 1
  exact congrArg₂ Interval.mk (without .lower) (without .upper)

end ReluSolver
