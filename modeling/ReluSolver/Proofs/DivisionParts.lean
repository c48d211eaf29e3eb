import ReluSolver.Proofs.CrashConsistency
import ReluSolver.Proofs.DivisionCover
import ReluSolver.Proofs.FaultlessDeduction

/-! A region is always divided into as many parts as are asked for, whatever its bounds are and
however far the deductions about it go. -/

namespace ReluSolver

open Extended

variable {α : Type}

def CaseSplit.Known (split : CaseSplit α) (size : Nat) : Prop :=
  ∀ t ∈ split.tightenings, t.var < size

/-- Two parts that a region is narrowed to, by tightenings of the first `size` variables. -/
def CaseSplit.Halved (split : CaseSplit α) (size : Nat) (parts : List (CaseSplit α)) : Prop :=
  ∃ first second, parts = [split.extended first, split.extended second] ∧
    ∀ t ∈ first ++ second, t.var < size

variable [Scalar α] {q : Query α} {split : CaseSplit α}

omit [Scalar α] in
theorem Query.interval_total {v : Variable} (known : v < q.size) :
    ∃ bounds, q.interval v = .ok bounds := by
  have found : q.bounds[v]? = some q.bounds[v] := Vector.getElem?_eq_getElem known
  exact ⟨_, by simp [interval, lower, upper, found, bind, Except.bind, pure, Except.pure]; rfl⟩

theorem Bisection.widestInput?_total (q : Query α) (split : CaseSplit α) :
    ∃ widest, widestInput? q split = .ok widest ∧ ∀ input ∈ widest, input.var < q.size := by
  have each : ∀ x ∈ q.inputs, ∃ input : InputBounds α,
      (return ⟨x, split.boundsOf x (← q.interval x)⟩ : Except Fault _) = .ok input ∧
        input.var < q.size := by
    intro x member
    obtain ⟨bounds, read⟩ := q.interval_total (q.inputs_known x member)
    exact ⟨⟨x, split.boundsOf x bounds⟩, by rw [read]; rfl, q.inputs_known x member⟩
  obtain ⟨candidates, run, known⟩ := mapM_total each
  refine ⟨_, bind_eq_ok.mpr ⟨candidates, run, rfl⟩, fun input chosen => ?_⟩
  obtain ⟨x, -, inside⟩ := forall₂_mem_right known (firstBest?_mem chosen)
  exact inside

theorem Bisection.divide_total (q : Query α) (split : CaseSplit α) :
    ∃ parts, Bisection.divide q split = .ok parts ∧ split.Halved q.size parts := by
  obtain ⟨widest, run, known⟩ := widestInput?_total q split
  cases widest with
  | none =>
    refine ⟨[split, split], bind_eq_ok.mpr ⟨_, run, rfl⟩, [], [], ?_, by simp⟩
    simp [CaseSplit.extended]
  | some input =>
    refine ⟨_, bind_eq_ok.mpr ⟨_, run, rfl⟩, _, _, rfl, fun t member => ?_⟩
    have inside := known input rfl
    rcases List.mem_pair.mp member with rfl | rfl <;> exact inside

namespace BranchingHeuristic

theorem unfixedFrom_total {s : Store α} (t : Tolerance α) {relus : List Relu}
    (known : ∀ r ∈ relus, r.b < s.size ∧ r.f < s.size) (index : Nat) :
    ∃ unfixed, unfixedFrom s t index relus = .ok unfixed ∧
      ∀ candidate ∈ unfixed, candidate.index < index + relus.length := by
  induction relus generalizing index with
  | nil => exact ⟨[], rfl, by simp⟩
  | cons r rest ih =>
    obtain ⟨input, output⟩ := known r (by simp)
    obtain ⟨phase, phased⟩ := Relu.phase_total input output rfl t
    obtain ⟨bounds, read, -⟩ := s.interval_total rfl input
    obtain ⟨later, run, inside⟩ := ih (fun other member => known other (by simp [member])) (index + 1)
    refine ⟨_, bind_eq_ok.mpr ⟨phase, phased, bind_eq_ok.mpr ⟨bounds, read,
      bind_eq_ok.mpr ⟨later, run, rfl⟩⟩⟩, fun candidate member => ?_⟩
    rw [List.length_cons]
    split at member
    · rcases List.mem_cons.mp member with rfl | member
      · simp only; omega
      · have := inside candidate member; omega
    · have := inside candidate member; omega

theorem select_total (h : BranchingHeuristic) {s : Store α} (sized : s.size = q.size)
    (t : Tolerance α) :
    ∃ selected, h.select q s t = .ok selected ∧ ∀ index ∈ selected, index < q.relus.length := by
  obtain ⟨unfixed, run, inside⟩ := unfixedFrom_total t (by rw [sized]; exact q.relus_known) 0
  refine ⟨_, bind_eq_ok.mpr ⟨unfixed, run, rfl⟩, fun index chosen => ?_⟩
  obtain ⟨candidate, best, rfl⟩ := Option.map_eq_some_iff.mp chosen
  simpa using inside candidate (firstBest?_mem best)

end BranchingHeuristic

namespace PhaseSplit

variable (effort : Effort α)

theorem selectRelu_total (known : split.Known q.size) :
    ∃ selected, selectRelu q effort split = .ok selected ∧
      ∀ index ∈ selected, index < q.relus.length := by
  obtain ⟨outcome, s, entered, sized⟩ := q.storeWithin_total known effort.tolerance
  have propagated := effort.propagateQuery_faultless q (List.forall_mem_nil _) s sized
  unfold selectRelu
  rw [entered]
  simp only [bind, Except.bind]
  split
  · exact ⟨none, rfl, by simp⟩
  · cases run : effort.propagateQuery q [] s with
    | ok news last =>
      rw [run] at propagated
      exact BranchingHeuristic.polarity.select_total propagated effort.tolerance
    | error cause last =>
      rw [run] at propagated
      obtain rfl := propagated
      exact ⟨none, rfl, by simp⟩

theorem divide_total (known : split.Known q.size) :
    ∃ parts, divide q effort split = .ok parts ∧ split.Halved q.size parts := by
  obtain ⟨selected, run, inside⟩ := selectRelu_total effort known
  cases selected with
  | none =>
    obtain ⟨parts, bisected, halved⟩ := Bisection.divide_total q split
    exact ⟨parts, bind_eq_ok.mpr ⟨_, run, bisected⟩, halved⟩
  | some index =>
    have listed : index < q.relus.length := inside index rfl
    have found := List.getElem?_eq_getElem listed
    obtain ⟨input, output⟩ := q.relus_known _ (List.getElem_mem listed)
    have read : q.relu index = .ok q.relus[index] := by rw [Query.relu, found]
    refine ⟨_, bind_eq_ok.mpr ⟨_, run, bind_eq_ok.mpr ⟨_, read, rfl⟩⟩, _, _, rfl, ?_⟩
    simp only [List.mem_append, List.mem_cons, List.not_mem_nil, or_false]
    rintro t ((rfl | rfl) | rfl | rfl)
    exacts [input, output, input, output]

end PhaseSplit

namespace CaseSplit

omit [Scalar α]

def Extends (part region : CaseSplit α) : Prop := ∃ extra, part = region.extended extra

theorem Extends.refl (region : CaseSplit α) : region.Extends region :=
  ⟨[], by simp [extended]⟩

theorem Extends.trans {part half region : CaseSplit α} (first : part.Extends half)
    (second : half.Extends region) : part.Extends region := by
  obtain ⟨later, rfl⟩ := first
  obtain ⟨earlier, rfl⟩ := second
  exact ⟨earlier ++ later, by simp [extended]⟩

theorem Extends.holds {part region : CaseSplit Extended} (narrower : part.Extends region)
    {x : Variable → ℚ} (inside : part.Holds x) : region.Holds x := by
  obtain ⟨extra, rfl⟩ := narrower
  exact (extended_holds.mp inside).1

theorem Halved.known {size : Nat} {parts : List (CaseSplit α)} (halved : split.Halved size parts)
    (before : split.Known size) : ∀ part ∈ parts, part.Known size := by
  obtain ⟨first, second, rfl, known⟩ := halved
  have inside : ∀ extra ⊆ first ++ second, (split.extended extra).Known size := by
    intro extra among t listed
    rcases List.mem_append.mp listed with earlier | added
    · exact before t earlier
    · exact known t (among added)
  intro part member
  rcases List.mem_pair.mp member with rfl | rfl
  · exact inside first (List.subset_append_left _ _)
  · exact inside second (List.subset_append_right _ _)

end CaseSplit

namespace Division

theorem halvings_pow (times : Nat) : halvings (2 ^ times) = .ok times := by
  rw [halvings, Nat.log2_two_pow]
  exact if_pos rfl

variable {d : Division α}

section Parts

variable {parts : List (CaseSplit α)}

theorem bisect_parts {q : Query α} (run : Bisection.divide q split = .ok parts) :
    ∃ first second, parts = [split.extended first, split.extended second] := by
  obtain ⟨widest, -, run⟩ := bind_eq_ok.mp run
  cases widest with
  | none =>
    obtain rfl := Except.ok.inj run
    exact ⟨[], [], by simp [CaseSplit.extended]⟩
  | some input => exact ⟨_, _, (Except.ok.inj run).symm⟩

theorem halve_parts (run : d.halve split = .ok parts) :
    ∃ first second, parts = [split.extended first, split.extended second] := by
  unfold halve at run
  split at run
  · obtain ⟨selected, -, run⟩ := bind_eq_ok.mp run
    cases selected with
    | none => exact bisect_parts run
    | some index =>
      obtain ⟨r, -, run⟩ := bind_eq_ok.mp run
      obtain ⟨active, -, run⟩ := bind_eq_ok.mp run
      obtain ⟨inactive, -, run⟩ := bind_eq_ok.mp run
      exact ⟨_, _, (Except.ok.inj run).symm⟩
  · exact bisect_parts run
  · exact bisect_parts run

theorem halveEach_length {regions : List (CaseSplit α)} {halves : List (List (CaseSplit α))}
    (run : regions.mapM d.halve = .ok halves) : halves.flatten.length = 2 * regions.length := by
  have each := (mapM_forall₂ run).imp fun _ _ halved => halve_parts halved
  clear run
  induction each with
  | nil => rfl
  | cons here _ ih =>
    obtain ⟨first, second, rfl⟩ := here
    rw [List.flatten_cons, List.length_append, ih, List.length_cons]
    simp only [List.length_cons, List.length_nil]
    omega

theorem refine_length {times : Nat} {regions : List (CaseSplit α)}
    (run : d.refine times regions = .ok parts) : parts.length = 2 ^ times * regions.length := by
  induction times generalizing regions with
  | zero =>
    obtain rfl := Except.ok.inj run
    simp
  | succ times ih =>
    obtain ⟨halves, halved, run⟩ := bind_eq_ok.mp run
    rw [ih run, halveEach_length halved, pow_succ, mul_assoc]

theorem refine_extends {times : Nat} {regions : List (CaseSplit α)}
    (run : d.refine times regions = .ok parts) {part : CaseSplit α} (member : part ∈ parts) :
    ∃ region ∈ regions, part.Extends region := by
  induction times generalizing regions with
  | zero =>
    obtain rfl := Except.ok.inj run
    exact ⟨part, member, .refl part⟩
  | succ times ih =>
    obtain ⟨halves, halved, run⟩ := bind_eq_ok.mp run
    obtain ⟨half, among, later⟩ := ih run
    obtain ⟨both, made, inside⟩ := List.mem_flatten.mp among
    obtain ⟨region, listed, here⟩ := forall₂_mem_right (mapM_forall₂ halved) made
    obtain ⟨first, second, rfl⟩ := halve_parts here
    refine ⟨region, listed, later.trans ?_⟩
    rcases List.mem_pair.mp inside with rfl | rfl
    · exact ⟨first, rfl⟩
    · exact ⟨second, rfl⟩

theorem subqueries_eq_ok {count depth : Nat} {parent : String} {timeout : Duration}
    {children : List (Subquery α)}
    (run : d.subqueries count parent depth split timeout = .ok children) :
    ∃ times parts, count = 2 ^ times ∧ d.refine times [split] = .ok parts ∧
      children = Subquery.ofParts parent (depth + 1) timeout parts := by
  obtain ⟨times, halved, run⟩ := bind_eq_ok.mp run
  obtain ⟨parts, refined, run⟩ := bind_eq_ok.mp run
  obtain ⟨next, deeper, run⟩ := bind_eq_ok.mp run
  obtain rfl := Except.ok.inj run
  unfold nextIndex at deeper
  split at deeper
  next =>
    obtain rfl := Except.ok.inj deeper
    unfold halvings at halved
    dsimp only at halved
    split at halved
    next power =>
      obtain rfl := Except.ok.inj halved
      exact ⟨_, parts, power, refined, rfl⟩
    next => cases halved
  next => cases deeper

theorem subqueries_length {count depth : Nat} {parent : String} {timeout : Duration}
    {children : List (Subquery α)}
    (run : d.subqueries count parent depth split timeout = .ok children) :
    children.length = count := by
  obtain ⟨times, parts, rfl, refined, rfl⟩ := subqueries_eq_ok run
  rw [Subquery.ofParts, List.length_mapIdx, refine_length refined, List.length_singleton, mul_one]

end Parts

theorem halve_total (known : d.strategy = .polarity → split.Known d.query.size) :
    ∃ parts, d.halve split = .ok parts ∧ split.Halved d.query.size parts := by
  unfold halve
  split
  next phases => exact PhaseSplit.divide_total d.effort (known phases)
  next => exact Bisection.divide_total d.query split
  next => exact Bisection.divide_total d.query split

theorem halveEach_total {regions : List (CaseSplit α)}
    (known : d.strategy = .polarity → ∀ region ∈ regions, region.Known d.query.size) :
    ∃ halves, regions.mapM d.halve = .ok halves ∧
      (d.strategy = .polarity → ∀ part ∈ halves.flatten, part.Known d.query.size) := by
  obtain ⟨halves, run, halved⟩ := mapM_total fun region member =>
    halve_total fun phases => known phases region member
  refine ⟨halves, run, fun phases part inside => ?_⟩
  obtain ⟨half, among, inside⟩ := List.mem_flatten.mp inside
  obtain ⟨region, member, here⟩ := forall₂_mem_right halved among
  exact here.known (known phases region member) part inside

theorem refine_total (times : Nat) {regions : List (CaseSplit α)}
    (known : d.strategy = .polarity → ∀ region ∈ regions, region.Known d.query.size) :
    ∃ parts, d.refine times regions = .ok parts := by
  induction times generalizing regions with
  | zero => exact ⟨regions, rfl⟩
  | succ times ih =>
    obtain ⟨halves, run, later⟩ := halveEach_total known
    obtain ⟨parts, refined⟩ := ih later
    exact ⟨parts, bind_eq_ok.mpr ⟨halves, run, refined⟩⟩

theorem subqueries_total (known : d.strategy = .polarity → split.Known d.query.size) {depth : Nat}
    (shallow : depth < maxIndex) (times : Nat) (parent : String) (timeout : Duration) :
    ∃ children, d.subqueries (2 ^ times) parent depth split timeout = .ok children ∧
      children.length = 2 ^ times := by
  have only : d.strategy = .polarity → ∀ region ∈ [split], region.Known d.query.size := by
    simpa using known
  obtain ⟨parts, refined⟩ := refine_total times only
  have deeper : nextIndex depth = .ok (depth + 1) := if_pos shallow
  have run : d.subqueries (2 ^ times) parent depth split timeout =
      .ok (Subquery.ofParts parent (depth + 1) timeout parts) :=
    bind_eq_ok.mpr ⟨_, halvings_pow times, bind_eq_ok.mpr ⟨_, refined,
      bind_eq_ok.mpr ⟨_, deeper, rfl⟩⟩⟩
  exact ⟨_, run, subqueries_length run⟩

/-- A region is divided into as many subqueries as are asked for. They stay within it, and an
assignment in the region that satisfies the ReLUs is in one of them. -/
theorem subqueries_cover {d : Division Extended} {split : CaseSplit Extended}
    (known : d.strategy = .polarity → split.Known d.query.size) {depth : Nat}
    (shallow : depth < maxIndex) (times : Nat) (parent : String) (timeout : Duration) :
    ∃ children, d.subqueries (2 ^ times) parent depth split timeout = .ok children ∧
      children.length = 2 ^ times ∧
      (∀ x, (∀ r ∈ d.query.relus, r.Holds x) → split.Holds x →
        ∃ child ∈ children, child.split.Holds x) ∧
      ∀ x, ∀ child ∈ children, child.split.Holds x → split.Holds x := by
  obtain ⟨children, run, count⟩ := subqueries_total known shallow times parent timeout
  refine ⟨children, run, count, fun x hold inside => ?_, fun x child member inside => ?_⟩
  · obtain ⟨part, among, holds⟩ := (subqueries_madeOf hold run).1.mp inside
    obtain ⟨child, member, rfl⟩ := List.mem_map.mp among
    exact ⟨child, member, holds⟩
  · obtain ⟨times, parts, -, refined, rfl⟩ := subqueries_eq_ok run
    obtain ⟨i, listed, rfl⟩ := List.mem_mapIdx.mp member
    obtain ⟨region, among, extended⟩ := refine_extends refined (List.getElem_mem listed)
    obtain rfl := List.mem_singleton.mp among
    exact extended.holds inside

/-- One ReLU is split on first. Where it is active the other one is still unfixed and is split on
as well; where it is inactive the other one is fixed, and the half open interval of an input is
bisected. -/
theorem subqueries_cover_mixed :
    let query : Query Extended := { Query.unconstrained 5 with
      bounds := #v[⟨-1, 3⟩, ⟨0, infinity⟩, .all, .all, .all]
      equations := [⟨[⟨1, 0⟩, ⟨-1, 3⟩], finite (5 / 2)⟩]
      equations_known := by decide
      relus := [⟨0, 2⟩, ⟨3, 4⟩]
      relus_known := by decide
      inputs := [0, 1]
      inputs_known := by decide }
    let d : Division Extended := ⟨query, .polarity, ⟨⟨finite (1 / 1000)⟩, 0, 3⟩⟩
    let base : CaseSplit Extended := ⟨[.lower 1 1]⟩
    let entry := fun child : Subquery Extended =>
      (child.id, child.split.tightenings.map fun t => (t.side, t.var, t.value))
    let entries : List (String × List (Side × Variable × Extended)) :=
      [("2-1", [(.lower, 1, 1), (.lower, 0, 0), (.lower, 2, 0), (.lower, 3, 0), (.lower, 4, 0)]),
        ("2-2", [(.lower, 1, 1), (.lower, 0, 0), (.lower, 2, 0), (.upper, 3, 0), (.upper, 4, 0)]),
        ("2-3", [(.lower, 1, 1), (.upper, 0, 0), (.upper, 2, 0), (.upper, 1, 2)]),
        ("2-4", [(.lower, 1, 1), (.upper, 0, 0), (.upper, 2, 0), (.lower, 1, 2)])]
    ∃ children, d.subqueries 4 "2" 1 base .zero = .ok children ∧ children.map entry = entries ∧
      (∀ x, (∀ r ∈ query.relus, r.Holds x) → base.Holds x → ∃ child ∈ children, child.split.Holds x) ∧
      ∀ x, ∀ child ∈ children, child.split.Holds x → base.Holds x := by
  intro query d base entry entries
  have known : base.Known d.query.size := by
    intro t member
    obtain rfl := List.mem_singleton.mp member
    decide
  obtain ⟨children, run, -, covered, within⟩ := subqueries_cover (d := d) (fun _ => known)
    (show 1 < maxIndex by decide) 2 "2" .zero
  have evaluated : (d.subqueries 4 "2" 1 base .zero).toOption.map (·.map entry) = some entries := by
    decide +kernel
  obtain ⟨same, run', listed⟩ := toOption_map_eq_some evaluated
  obtain rfl : children = same := Except.ok.inj (run.symm.trans run')
  exact ⟨children, run, listed, covered, within⟩

end Division

end ReluSolver
