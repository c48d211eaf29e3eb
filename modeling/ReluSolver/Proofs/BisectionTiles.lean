import ReluSolver.Proofs.BestIntervals
import ReluSolver.Proofs.DivisionParts
import ReluSolver.Proofs.PhaseStack
import ReluSolver.Proofs.SnapshotMeet

/-! Bisecting tiles a region. Any two parts were cut apart at some input when they came from
one region for the last time, and later cuts only move their ends further apart. A cut of
an interval with more than one number in it is strictly between the ends, so that both
parts are smaller. -/

namespace ReluSolver

open Extended

namespace Extended

variable {x y c : Extended}

protected theorem le_refl (defined : x ≠ undefined) : x ≤ x :=
  (le_iff_position defined defined).mpr le_rfl

protected theorem min_le_of_le (y : Extended) (below : x ≤ c) : Scalar.min x y ≤ c := by
  have defined : x ≠ undefined := fun same => not_undefined_le (same ▸ below)
  simp only [Scalar.min, isUndefined_eq_false defined, Bool.false_eq_true, if_false]
  split
  next less => exact Extended.le_trans (le_of_lt less) below
  next => exact below

protected theorem le_max_of_le (y : Extended) (above : c ≤ x) : c ≤ Scalar.max x y := by
  have defined : x ≠ undefined := fun same => not_le_undefined (same ▸ above)
  simp only [Scalar.max, isUndefined_eq_false defined, Bool.false_eq_true, if_false]
  split
  next less => exact Extended.le_trans above (le_of_lt less)
  next => exact above

protected theorem min_le_right (x : Extended) (defined : y ≠ undefined) : Scalar.min x y ≤ y := by
  by_cases none : x = undefined
  · subst none
    exact Extended.le_refl defined
  · rw [le_iff_position (min_defined none) defined, position_min none defined]
    exact min_le_right _ _

protected theorem le_max_right (x : Extended) (defined : y ≠ undefined) : y ≤ Scalar.max x y := by
  by_cases none : x = undefined
  · subst none
    exact Extended.le_refl defined
  · rw [le_iff_position defined (max_defined none), position_max none defined]
    exact le_max_right _ _

theorem min_eq_right_of_lt (less : y < x) : Scalar.min x y = y := by
  rw [Scalar.min, if_pos less, ite_self]

theorem max_eq_right_of_lt (less : x < y) : Scalar.max x y = y := by
  rw [Scalar.max, if_pos less, ite_self]

theorem exists_finite_between (less : x < y) : ∃ r, x < finite r ∧ finite r < y := by
  cases x with
  | undefined => exact absurd less (not_undefined_lt _)
  | infinity => cases y <;> exact absurd less Bool.false_ne_true
  | negInfinity =>
    cases y with
    | undefined | negInfinity => exact absurd less Bool.false_ne_true
    | infinity => exact ⟨0, rfl, rfl⟩
    | finite u => exact ⟨u - 1, rfl, lt_finite.mpr (by linarith)⟩
  | finite l =>
    cases y with
    | undefined | negInfinity => exact absurd less Bool.false_ne_true
    | infinity => exact ⟨l + 1, lt_finite.mpr (by linarith), rfl⟩
    | finite u =>
      obtain ⟨r, above, below⟩ := exists_between (lt_finite.mp less)
      exact ⟨r, lt_finite.mpr above, lt_finite.mpr below⟩

end Extended

namespace CaseSplit

variable {c : Extended} {i : Interval Extended} {part region : CaseSplit Extended} {v : Variable}

theorem boundsOf_upper_le (ts : List (Tightening Extended)) (v : Variable) (below : i.upper ≤ c) :
    (boundsOf ⟨ts⟩ v i).upper ≤ c := by
  induction ts generalizing i with
  | nil => exact below
  | cons t rest ih =>
    rw [boundsOf_cons]
    split
    · obtain ⟨side, var, value⟩ := t
      cases side with
      | lower => exact ih below
      | upper => exact ih (Extended.min_le_of_le value below)
    · exact ih below

theorem le_boundsOf_lower (ts : List (Tightening Extended)) (v : Variable) (above : c ≤ i.lower) :
    c ≤ (boundsOf ⟨ts⟩ v i).lower := by
  induction ts generalizing i with
  | nil => exact above
  | cons t rest ih =>
    rw [boundsOf_cons]
    split
    · obtain ⟨side, var, value⟩ := t
      cases side with
      | lower => exact ih (Extended.le_max_of_le value above)
      | upper => exact ih above
    · exact ih above

theorem Extends.upper_le (narrower : part.Extends region)
    (below : (region.boundsOf v i).upper ≤ c) : (part.boundsOf v i).upper ≤ c := by
  obtain ⟨extra, rfl⟩ := narrower
  rw [extended, boundsOf_append]
  exact boundsOf_upper_le extra v below

theorem Extends.le_lower (narrower : part.Extends region)
    (above : c ≤ (region.boundsOf v i).lower) : c ≤ (part.boundsOf v i).lower := by
  obtain ⟨extra, rfl⟩ := narrower
  rw [extended, boundsOf_append]
  exact le_boundsOf_lower extra v above

theorem boundsOf_extended_upper (region : CaseSplit Extended) (v : Variable)
    (i : Interval Extended) :
    (region.extended [.upper v c]).boundsOf v i =
      { region.boundsOf v i with upper := Scalar.min (region.boundsOf v i).upper c } := by
  simp [extended, boundsOf, Tightening.upper, Tightening.narrow]

theorem boundsOf_extended_lower (region : CaseSplit Extended) (v : Variable)
    (i : Interval Extended) :
    (region.extended [.lower v c]).boundsOf v i =
      { region.boundsOf v i with lower := Scalar.max (region.boundsOf v i).lower c } := by
  simp [extended, boundsOf, Tightening.lower, Tightening.narrow]

end CaseSplit

namespace Query

/-- On some input one region ends where another one begins, or before that. -/
def Separates (q : Query Extended) (earlier later : CaseSplit Extended) : Prop :=
  ∃ v ∈ q.inputs, ∃ bounds, q.interval v = .ok bounds ∧
    (earlier.boundsOf v bounds).upper ≤ (later.boundsOf v bounds).lower

def Interior (q : Query Extended) (region : CaseSplit Extended) (x : Variable → Extended) : Prop :=
  ∀ v ∈ q.inputs, ∀ bounds, q.interval v = .ok bounds →
    (region.boundsOf v bounds).lower < x v ∧ x v < (region.boundsOf v bounds).upper

variable {q : Query Extended} {earlier later : CaseSplit Extended}

theorem Separates.extends (apart : q.Separates earlier later) {first second : CaseSplit Extended}
    (within : first.Extends earlier) (within' : second.Extends later) : q.Separates first second := by
  obtain ⟨v, input, bounds, read, ordered⟩ := apart
  exact ⟨v, input, bounds, read, within'.le_lower (within.upper_le ordered)⟩

theorem Separates.not_interior (apart : q.Separates earlier later) (x : Variable → Extended) :
    ¬ (q.Interior earlier x ∧ q.Interior later x) := by
  rintro ⟨inside, inside'⟩
  obtain ⟨v, input, bounds, read, ordered⟩ := apart
  have below := le_of_lt (inside v input bounds read).2
  exact not_lt_of_le (Extended.le_trans below ordered) (inside' v input bounds read).1

end Query

namespace Interval

/-- The finite ends are less than the greatest number in magnitude. -/
def Moderate (i : Interval Extended) : Prop :=
  ∀ e ∈ [i.lower, i.upper], Scalar.isFinite e = true → Scalar.abs e < Scalar.largest

/-- An interval within another one that has further numbers in it. -/
structure ProperPart (inner outer : Interval Extended) : Prop where
  within : ∀ x, inner.Contains x → outer.Contains x
  smaller : ∃ x, outer.Contains x ∧ ¬ inner.Contains x

section SplitPoints

variable {greatest : ℚ} (shape : (Scalar.largest : Extended) = finite greatest)

theorem splitPoint_finite_finite (l u : ℚ) :
    splitPoint ⟨finite l, finite u⟩ = finite (l / 2 + u / 2) := by
  change finite l / 2 + finite u / 2 = _
  rw [two_eq, div_finite _ two_ne_zero, div_finite _ two_ne_zero, add_finite]

include shape

theorem splitPoint_finite_infinity (l : ℚ) :
    splitPoint ⟨finite l, infinity⟩ = finite (min (l + max |l| 1) greatest) := by
  change Scalar.min (finite l + cutDistance (finite l)) Scalar.largest = _
  rw [cutDistance, shape, abs_finite, one_eq, max_finite, add_finite, min_finite]

theorem splitPoint_negInfinity_finite (u : ℚ) :
    splitPoint ⟨negInfinity, finite u⟩ = finite (max (u - max |u| 1) (-greatest)) := by
  change Scalar.max (finite u - cutDistance (finite u)) (-Scalar.largest) = _
  rw [cutDistance, shape, abs_finite, one_eq, max_finite, sub_finite, neg_finite, max_finite]

end SplitPoints

variable {i : Interval Extended}

theorem splitPoint_between (proper : i.lower < i.upper) (moderate : i.Moderate) :
    i.lower < i.splitPoint ∧ i.splitPoint < i.upper := by
  obtain ⟨greatest, shape⟩ : ∃ r, (Scalar.largest : Extended) = finite r := ⟨_, rfl⟩
  obtain ⟨lower, upper⟩ := i
  have magnitude : ∀ r, finite r ∈ [lower, upper] → |r| < greatest := by
    intro r isEnd
    have small := moderate (finite r) isEnd rfl
    rwa [shape, abs_finite, lt_finite] at small
  cases lower with
  | undefined => exact absurd proper (not_undefined_lt _)
  | infinity => cases upper <;> exact absurd proper Bool.false_ne_true
  | negInfinity =>
    cases upper with
    | undefined | negInfinity => exact absurd proper Bool.false_ne_true
    | infinity => exact ⟨rfl, rfl⟩
    | finite u =>
      rw [splitPoint_negInfinity_finite shape]
      have distance : 1 ≤ max |u| 1 := le_max_right _ _
      have above := (abs_lt.mp (magnitude u (by simp))).1
      exact ⟨rfl, lt_finite.mpr (max_lt (by linarith) above)⟩
  | finite l =>
    cases upper with
    | undefined | negInfinity => exact absurd proper Bool.false_ne_true
    | infinity =>
      rw [splitPoint_finite_infinity shape]
      have distance : 1 ≤ max |l| 1 := le_max_right _ _
      have below := (abs_lt.mp (magnitude l (by simp))).2
      exact ⟨lt_finite.mpr (lt_min (by linarith) below), rfl⟩
    | finite u =>
      have proper : l < u := lt_finite.mp proper
      rw [splitPoint_finite_finite]
      exact ⟨lt_finite.mpr (by linarith), lt_finite.mpr (by linarith)⟩

theorem properParts {cut : Extended} (below : i.lower < cut) (above : cut < i.upper) :
    ProperPart ⟨i.lower, cut⟩ i ∧ ProperPart ⟨cut, i.upper⟩ i := by
  obtain ⟨left, left_above, left_below⟩ := exists_finite_between below
  obtain ⟨right, right_above, right_below⟩ := exists_finite_between above
  constructor
  · exact {
      within := fun x inside => ⟨inside.lower, Extended.le_trans inside.upper (le_of_lt above)⟩
      smaller := ⟨right,
        ⟨Extended.le_trans (le_of_lt below) (le_of_lt right_above), le_of_lt right_below⟩,
        fun inside => not_lt_of_le inside.upper right_above⟩ }
  · exact {
      within := fun x inside => ⟨Extended.le_trans (le_of_lt below) inside.lower, inside.upper⟩
      smaller := ⟨left,
        ⟨le_of_lt left_above, Extended.le_trans (le_of_lt left_below) (le_of_lt above)⟩,
        fun inside => not_lt_of_le inside.lower left_below⟩ }

end Interval

section Cuts

variable {q : Query Extended} {region : CaseSplit Extended} {parts : List (CaseSplit Extended)}

/-- No input has a wider interval in a region than the given one. -/
def Bisection.Widest (q : Query Extended) (region : CaseSplit Extended)
    (widest : Interval Extended) : Prop :=
  ∀ v ∈ q.inputs, ∀ bounds, q.interval v = .ok bounds → (region.boundsOf v bounds).NoWider widest

theorem Bisection.widestInput?_eq_some (hasInput : q.inputs ≠ []) (region : CaseSplit Extended) :
    ∃ input bounds, widestInput? q region = .ok (some input) ∧ input.var ∈ q.inputs ∧
      q.interval input.var = .ok bounds ∧ input.bounds = region.boundsOf input.var bounds ∧
      Widest q region input.bounds := by
  have each : ∀ x ∈ q.inputs, ∃ input : InputBounds Extended,
      (return ⟨x, region.boundsOf x (← q.interval x)⟩ : Except Fault _) = .ok input ∧
        x = input.var ∧ x ∈ q.inputs ∧ ∃ bounds, q.interval x = .ok bounds ∧
          input.bounds = region.boundsOf x bounds := by
    intro x member
    obtain ⟨bounds, read⟩ := q.interval_total (q.inputs_known x member)
    exact ⟨⟨x, region.boundsOf x bounds⟩, by rw [read]; rfl, rfl, member, bounds, read, rfl⟩
  obtain ⟨candidates, run, made⟩ := mapM_total each
  cases chosen : firstBest? (fun (candidate best : InputBounds Extended) =>
      !decide (candidate.bounds.width ≤ best.bounds.width)) candidates with
  | none =>
    rw [firstBest?_eq_none.mp chosen] at made
    exact absurd (List.forall₂_nil_right_iff.mp made) hasInput
  | some input =>
    obtain ⟨_, -, rfl, member, bounds, read, narrowed⟩ :=
      forall₂_mem_right made (firstBest?_mem chosen)
    refine ⟨input, bounds, bind_eq_ok.mpr ⟨candidates, run, congrArg Except.ok chosen⟩, member, read,
      narrowed, fun v among other read' => ?_⟩
    obtain ⟨-, -, -, -, atLeast⟩ := firstBest?_spec
      (fun (x y : InputBounds Extended) => y.bounds.width ≤ x.bounds.width)
      (fun first second => Extended.le_trans second first)
      (fun _ _ => Extended.le_total Interval.width_defined Interval.width_defined)
      (fun _ _ => by simp) chosen
    obtain ⟨candidate, listed, rfl, -, bounds', read'', narrowed'⟩ := forall₂_mem_right made.flip among
    obtain rfl := Except.ok.inj (read'.symm.trans read'')
    rw [Interval.noWider_iff, ← narrowed']
    exact atLeast candidate listed

/-- What `divide` does to a region: it cuts the interval of the widest input at its split point. -/
theorem Bisection.divide_cut (hasInput : q.inputs ≠ []) (region : CaseSplit Extended) :
    ∃ input bounds, widestInput? q region = .ok (some input) ∧ input.var ∈ q.inputs ∧
      q.interval input.var = .ok bounds ∧ input.bounds = region.boundsOf input.var bounds ∧
      Widest q region input.bounds ∧
      divide q region = .ok [region.extended [.upper input.var input.bounds.splitPoint],
        region.extended [.lower input.var input.bounds.splitPoint]] := by
  obtain ⟨input, bounds, chosen, member, read, narrowed, widest⟩ :=
    widestInput?_eq_some hasInput region
  exact ⟨input, bounds, chosen, member, read, narrowed, widest,
    bind_eq_ok.mpr ⟨some input, chosen, rfl⟩⟩

/-- Parts of a region that are apart from each other. -/
structure Query.Tiled (q : Query Extended) (region : CaseSplit Extended)
    (parts : List (CaseSplit Extended)) : Prop where
  apart : parts.Pairwise q.Separates
  within : ∀ part ∈ parts, part.Extends region

theorem Bisection.divide_tiled (hasInput : q.inputs ≠ []) (run : divide q region = .ok parts) :
    q.Tiled region parts := by
  obtain ⟨input, bounds, -, member, read, -, -, divided⟩ := divide_cut hasInput region
  obtain rfl := Except.ok.inj (divided.symm.trans run)
  obtain ⟨cut, shape⟩ := isFinite_iff.mp input.bounds.splitPoint_finite
  rw [shape]
  refine ⟨List.pairwise_pair.mpr ⟨input.var, member, bounds, read, ?_⟩, fun part among => ?_⟩
  · rw [CaseSplit.boundsOf_extended_upper, CaseSplit.boundsOf_extended_lower]
    exact Extended.le_trans (Extended.min_le_right _ (finite_defined cut))
      (Extended.le_max_right _ (finite_defined cut))
  · rcases List.mem_pair.mp among with rfl | rfl <;> exact ⟨_, rfl⟩

namespace Division

variable {d : Division Extended} (bisects : d.strategy ≠ .polarity) (hasInput : d.query.inputs ≠ [])
include bisects hasInput

theorem halve_tiled (run : d.halve region = .ok parts) : d.query.Tiled region parts := by
  unfold halve at run
  split at run
  next phases => exact absurd phases bisects
  next => exact Bisection.divide_tiled hasInput run
  next => exact Bisection.divide_tiled hasInput run

theorem halveEach_apart {regions : List (CaseSplit Extended)} {halves : List (List (CaseSplit Extended))}
    (apart : regions.Pairwise d.query.Separates) (run : regions.mapM d.halve = .ok halves) :
    halves.flatten.Pairwise d.query.Separates := by
  have tiled := (mapM_forall₂ run).imp fun _ _ halved => halve_tiled bisects hasInput halved
  clear run
  induction tiled with
  | nil => exact .nil
  | @cons region parts others rest here later ih =>
    obtain ⟨ahead, apart⟩ := List.pairwise_cons.mp apart
    refine List.pairwise_append.mpr ⟨here.apart, ih apart, fun part inside other among => ?_⟩
    obtain ⟨half, listed, among⟩ := List.mem_flatten.mp among
    obtain ⟨origin, member, made⟩ := forall₂_mem_right later listed
    exact (ahead origin member).extends (here.within part inside) (made.within other among)

theorem refine_apart {times : Nat} {regions : List (CaseSplit Extended)}
    (apart : regions.Pairwise d.query.Separates) (run : d.refine times regions = .ok parts) :
    parts.Pairwise d.query.Separates := by
  induction times generalizing regions with
  | zero => exact Except.ok.inj run ▸ apart
  | succ times ih =>
    obtain ⟨halves, halved, run⟩ := bind_eq_ok.mp run
    exact ih (halveEach_apart bisects hasInput apart halved) run

theorem subqueries_apart {count depth : Nat} {parent : String} {timeout : Duration}
    {children : List (Subquery Extended)}
    (run : d.subqueries count parent depth region timeout = .ok children) :
    (children.map (·.split)).Pairwise d.query.Separates := by
  obtain ⟨times, parts, -, refined, rfl⟩ := subqueries_eq_ok run
  rw [Subquery.ofParts_split]
  exact refine_apart bisects hasInput (List.pairwise_singleton _ _) refined

end Division

/-- A region is cut in two at its widest input. If that has an interval with more than one number
in it, both parts have a smaller interval. -/
def Bisection.Shrinks (q : Query Extended) (region : CaseSplit Extended) : Prop :=
  ∃ input bounds first second, widestInput? q region = .ok (some input) ∧
    input.var ∈ q.inputs ∧ q.interval input.var = .ok bounds ∧
    input.bounds = region.boundsOf input.var bounds ∧ Widest q region input.bounds ∧
    divide q region = .ok [first, second] ∧
    (input.bounds.lower < input.bounds.upper → input.bounds.Moderate →
      (∃ cut, first.boundsOf input.var bounds = ⟨input.bounds.lower, cut⟩ ∧
        second.boundsOf input.var bounds = ⟨cut, input.bounds.upper⟩) ∧
      ∀ part ∈ [first, second], (part.boundsOf input.var bounds).ProperPart input.bounds)

theorem Bisection.divide_shrinks (hasInput : q.inputs ≠ []) (region : CaseSplit Extended) :
    Shrinks q region := by
  obtain ⟨input, bounds, chosen, member, read, narrowed, widest, divided⟩ :=
    divide_cut hasInput region
  refine ⟨input, bounds, _, _, chosen, member, read, narrowed, widest, divided,
    fun proper moderate => ?_⟩
  obtain ⟨below, above⟩ := Interval.splitPoint_between proper moderate
  obtain ⟨left, right⟩ := Interval.properParts below above
  have first := CaseSplit.boundsOf_extended_upper (c := input.bounds.splitPoint) region input.var bounds
  have second := CaseSplit.boundsOf_extended_lower (c := input.bounds.splitPoint) region input.var bounds
  rw [← narrowed, Extended.min_eq_right_of_lt above] at first
  rw [← narrowed, Extended.max_eq_right_of_lt below] at second
  refine ⟨⟨input.bounds.splitPoint, first, second⟩, fun part among => ?_⟩
  rcases List.mem_pair.mp among with rfl | rfl
  · rwa [first]
  · rwa [second]

/-- The subqueries that a region is bisected into are apart from each other: of any two, the
earlier one ends on some input where the later one begins, or before that, and nothing is strictly
inside both. Each bisection makes the intervals smaller. -/
theorem Division.bisection_tiles {d : Division Extended} (bisects : d.strategy ≠ .polarity)
    (hasInput : d.query.inputs ≠ []) (times : Nat) (parent : String) (depth : Nat)
    (split : CaseSplit Extended) (timeout : Duration) :
    (depth < maxIndex → ∃ children,
      d.subqueries (2 ^ times) parent depth split timeout = .ok children ∧
        children.length = 2 ^ times) ∧
    (∀ children, d.subqueries (2 ^ times) parent depth split timeout = .ok children →
      children.Pairwise fun earlier later => d.query.Separates earlier.split later.split ∧
        ∀ x, ¬ (d.query.Interior earlier.split x ∧ d.query.Interior later.split x)) ∧
    ∀ region, Bisection.Shrinks d.query region := by
  refine ⟨fun shallow => subqueries_total (absurd · bisects) shallow times parent timeout,
    fun children run => ?_, Bisection.divide_shrinks hasInput⟩
  refine (List.pairwise_map.mp (subqueries_apart bisects hasInput run)).imp fun apart => ?_
  exact ⟨apart, apart.not_interior⟩

/-- Two half open intervals. The lower half of the first one is bounded, so that the second one is
cut there; the upper half is still unbounded and, as the first of equally wide inputs, cut again. -/
theorem Division.bisection_tiles_unbounded :
    let query : Query Extended := { Query.unconstrained 2 with
      bounds := #v[⟨0, infinity⟩, ⟨negInfinity, -2⟩]
      inputs := [0, 1]
      inputs_known := by decide }
    let d : Division Extended := ⟨query, .largestInterval, ⟨⟨finite (1 / 1000)⟩, 0, 3⟩⟩
    let box := fun child : Subquery Extended => query.inputs.map fun v =>
      ((query.interval v).toOption.map (child.split.boundsOf v)).map fun i => (i.lower, i.upper)
    ∃ children, d.subqueries 4 "" 0 .empty .zero = .ok children ∧
      children.map box = [[some (0, 1), some (negInfinity, -4)], [some (0, 1), some (-4, -2)],
        [some (1, 2), some (negInfinity, -2)], [some (2, infinity), some (negInfinity, -2)]] ∧
      (children.Pairwise fun earlier later => query.Separates earlier.split later.split ∧
        ∀ x, ¬ (query.Interior earlier.split x ∧ query.Interior later.split x)) ∧
      ∃ first second, Bisection.divide query .empty = .ok [first, second] ∧
        ∀ part ∈ [first, second], (part.boundsOf 0 ⟨0, infinity⟩).ProperPart ⟨0, infinity⟩ := by
  intro query d box
  obtain ⟨total, apart, shrinks⟩ := bisection_tiles (d := d) (by decide) (by decide) 2 "" 0 .empty .zero
  obtain ⟨children, run, -⟩ := total (by decide)
  have evaluated : (d.subqueries 4 "" 0 .empty .zero).toOption.map (·.map box) =
      some [[some (0, 1), some (negInfinity, -4)], [some (0, 1), some (-4, -2)],
        [some (1, 2), some (negInfinity, -2)], [some (2, infinity), some (negInfinity, -2)]] := by
    decide +kernel
  obtain ⟨same, run', listed⟩ := toOption_map_eq_some evaluated
  obtain rfl : children = same := Except.ok.inj (run.symm.trans run')
  refine ⟨children, run, listed, apart children run, ?_⟩
  obtain ⟨⟨v, lower, upper⟩, bounds, first, second, chosen, -, read, -, -, divided, smaller⟩ :=
    shrinks .empty
  have widest : (Bisection.widestInput? query .empty).toOption.map
      (·.map fun input => (input.var, input.bounds.lower, input.bounds.upper)) =
        some (some (0, 0, infinity)) := by
    decide +kernel
  rw [chosen] at widest
  obtain ⟨rfl, rfl, rfl⟩ : v = 0 ∧ lower = 0 ∧ upper = infinity := by
    simpa [Except.toOption] using widest
  obtain rfl : ⟨0, infinity⟩ = bounds := Except.ok.inj read
  have moderate : (⟨0, infinity⟩ : Interval Extended).Moderate := by
    unfold Interval.Moderate
    decide +kernel
  exact ⟨first, second, divided, (smaller (by decide +kernel) moderate).2⟩

end Cuts

end ReluSolver
