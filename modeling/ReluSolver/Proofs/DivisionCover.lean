import ReluSolver.Division.Basic
import ReluSolver.Proofs.PresolveRebuild
import ReluSolver.Proofs.SearchCoverage

/-! Dividing a region loses no assignment and adds none: those that satisfy the ReLUs
are in the region exactly when they are in one of its parts. -/

namespace ReluSolver

open Extended

namespace Interval

theorem splitPoint_finite (i : Interval Extended) : Scalar.isFinite i.splitPoint = true := by
  obtain ⟨r, largest⟩ : ∃ r, (Scalar.largest : Extended) = finite r := ⟨_, rfl⟩
  unfold splitPoint
  split
  · exact i.midpoint_finite
  next lower _ =>
    obtain ⟨l, shape⟩ := isFinite_iff.mp lower
    rw [cutDistance, shape, largest, abs_finite, one_eq, max_finite, add_finite, min_finite]
    rfl
  next _ upper =>
    obtain ⟨u, shape⟩ := isFinite_iff.mp upper
    rw [cutDistance, shape, largest, abs_finite, one_eq, max_finite, sub_finite, neg_finite,
      max_finite]
    rfl
  next => rw [zero_eq]; rfl

end Interval

theorem Query.Solution.interval {q : Query Extended} {x : Variable → ℚ} (solution : q.Solution x)
    {v : Variable} {bounds : Interval Extended} (read : q.interval v = .ok bounds) :
    bounds.Contains (x v) := by
  obtain ⟨lower, readLower, read⟩ := bind_eq_ok.mp read
  obtain ⟨upper, readUpper, read⟩ := bind_eq_ok.mp read
  obtain rfl := Except.ok.inj read
  unfold Query.lower at readLower
  unfold Query.upper at readUpper
  split at readLower
  next found =>
    rw [found] at readUpper
    obtain ⟨known, rfl⟩ := Vector.getElem?_eq_some_iff.mp found
    obtain rfl := Except.ok.inj readLower
    obtain rfl := Except.ok.inj readUpper
    exact solution.bounds v known
  next => cases readLower

theorem Subquery.ofParts_split {α : Type} (parent : String) (depth : Nat) (timeout : Duration)
    (parts : List (CaseSplit α)) : (ofParts parent depth timeout parts).map (·.split) = parts := by
  apply List.ext_getElem (by simp [ofParts])
  simp [ofParts]

namespace CaseSplit

/-- As far as an assignment is concerned, a region is made up of the parts. -/
def MadeOf (split : CaseSplit Extended) (parts : List (CaseSplit Extended))
    (x : Variable → ℚ) : Prop :=
  split.Holds x ↔ ∃ part ∈ parts, part.Holds x

variable {split : CaseSplit Extended} {x : Variable → ℚ}

theorem madeOf_extended {first second : List (Tightening Extended)}
    (either : (∀ t ∈ first, t.Holds x) ∨ ∀ t ∈ second, t.Holds x) :
    split.MadeOf [split.extended first, split.extended second] x := by
  simp only [MadeOf, List.mem_cons, List.not_mem_nil, or_false, exists_eq_or_imp, exists_eq_left,
    extended_holds]
  tauto

end CaseSplit

variable {q : Query Extended} {x : Variable → ℚ} {split : CaseSplit Extended}
  {parts : List (CaseSplit Extended)}

theorem Bisection.divide_madeOf (run : Bisection.divide q split = .ok parts) :
    split.MadeOf parts x := by
  obtain ⟨widest, -, run⟩ := bind_eq_ok.mp run
  cases widest with
  | none =>
    obtain rfl := Except.ok.inj run
    simp [CaseSplit.MadeOf]
  | some widest =>
    obtain rfl := Except.ok.inj run
    obtain ⟨cut, same⟩ := isFinite_iff.mp widest.bounds.splitPoint_finite
    apply CaseSplit.madeOf_extended
    rw [same]
    simpa [Tightening.Holds, Tightening.upper, Tightening.lower] using le_total (x widest.var) cut

theorem PhaseSplit.divide_madeOf {effort : Effort Extended} (hold : ∀ r ∈ q.relus, r.Holds x)
    (run : PhaseSplit.divide q effort split = .ok parts) : split.MadeOf parts x := by
  obtain ⟨selected, -, run⟩ := bind_eq_ok.mp run
  cases selected with
  | none => exact Bisection.divide_madeOf run
  | some index =>
    obtain ⟨r, found, run⟩ := bind_eq_ok.mp run
    obtain ⟨active, madeActive, run⟩ := bind_eq_ok.mp run
    obtain ⟨inactive, madeInactive, run⟩ := bind_eq_ok.mp run
    obtain rfl := Except.ok.inj run
    have holds := hold r (List.mem_of_getElem? (Problem.relu_eq_ok.mp found))
    apply CaseSplit.madeOf_extended
    rcases le_total 0 (x r.b) with side | side
    · exact .inl (Problem.phaseSplit_holds holds madeActive side)
    · exact .inr (Problem.phaseSplit_holds holds madeInactive side)

namespace Division

variable {d : Division Extended}

theorem halve_madeOf (hold : ∀ r ∈ d.query.relus, r.Holds x) (run : d.halve split = .ok parts) :
    split.MadeOf parts x := by
  unfold halve at run
  split at run
  · exact PhaseSplit.divide_madeOf hold run
  · exact Bisection.divide_madeOf run
  · exact Bisection.divide_madeOf run

theorem refine_holds (hold : ∀ r ∈ d.query.relus, r.Holds x) {times : Nat}
    {regions : List (CaseSplit Extended)} (run : d.refine times regions = .ok parts) :
    (∃ region ∈ regions, region.Holds x) ↔ ∃ part ∈ parts, part.Holds x := by
  induction times generalizing regions with
  | zero => rw [Except.ok.inj run]
  | succ times ih =>
    obtain ⟨halves, halved, run⟩ := bind_eq_ok.mp run
    rw [← ih run]
    simp only [List.mem_flatten]
    constructor
    · rintro ⟨region, member, holds⟩
      obtain ⟨half, among, made⟩ := forall₂_mem_right (mapM_forall₂ halved).flip member
      obtain ⟨part, inside, holds⟩ := (halve_madeOf hold made).mp holds
      exact ⟨part, ⟨half, among, inside⟩, holds⟩
    · rintro ⟨part, ⟨half, among, inside⟩, holds⟩
      obtain ⟨region, member, made⟩ := forall₂_mem_right (mapM_forall₂ halved) among
      exact ⟨region, member, (halve_madeOf hold made).mpr ⟨part, inside, holds⟩⟩

theorem subqueries_madeOf (hold : ∀ r ∈ d.query.relus, r.Holds x) {count depth : Nat}
    {parent : String} {timeout : Duration} {children : List (Subquery Extended)}
    (run : d.subqueries count parent depth split timeout = .ok children) :
    split.MadeOf (children.map (·.split)) x ∧ ∀ child ∈ children, child.state = none := by
  obtain ⟨times, -, run⟩ := bind_eq_ok.mp run
  obtain ⟨parts, refined, run⟩ := bind_eq_ok.mp run
  obtain ⟨next, -, run⟩ := bind_eq_ok.mp run
  obtain rfl := Except.ok.inj run
  rw [Subquery.ofParts_split]
  refine ⟨by simpa [CaseSplit.MadeOf] using refine_holds hold refined, fun child member => ?_⟩
  obtain ⟨i, known, rfl⟩ := List.mem_mapIdx.mp member
  rfl

theorem wholeRegion_holds (solution : d.query.Solution x) {region : CaseSplit Extended}
    (run : d.wholeRegion = .ok region) : region.Holds x := by
  unfold wholeRegion at run
  split at run
  · obtain rfl := Except.ok.inj run
    exact CaseSplit.empty_holds x
  · obtain ⟨sides, found, run⟩ := bind_eq_ok.mp run
    obtain rfl := Except.ok.inj run
    intro t member
    obtain ⟨side, among, inside⟩ := List.mem_flatten.mp member
    obtain ⟨v, -, made⟩ := forall₂_mem_right (mapM_forall₂ found) among
    obtain ⟨bounds, interval, made⟩ := bind_eq_ok.mp made
    obtain rfl := Except.ok.inj made
    have contains := solution.interval interval
    rcases List.mem_append.mp inside with below | above
    · split at below
      · obtain rfl := List.mem_singleton.mp below
        exact contains.lower
      · cases below
    · split at above
      · obtain rfl := List.mem_singleton.mp above
        exact contains.upper
      · cases above

end Division

end ReluSolver
