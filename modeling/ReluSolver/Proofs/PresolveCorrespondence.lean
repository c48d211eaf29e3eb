import Mathlib.Data.Set.Function
import ReluSolver.Proofs.PresolveTranslation

/-! Simplifying a query changes what a solution looks like, not which there are. A
solution of the simplified query is carried back along the chains of merged variables,
up to any tolerance; without tolerance the way back undoes the restriction to the kept
variables, so the solutions of the two queries correspond one to one. -/

namespace ReluSolver

open Extended

/-- The values pass the query's own test. -/
def Query.Accepts (q : Query Extended) (t : Tolerance Extended) (x : Array ℚ) : Prop :=
  q.isSatisfiedBy (x.map finite) t = .ok true

/-- The values of the kept variables, under their new numbers. -/
def VariableMap.restrict {α : Type} (m : VariableMap α) (x : Array ℚ) : Array ℚ :=
  (m.survivors.map fun v => x.getD v 0).toArray

section Exact

theorem Tolerance.exact_epsilon : exact.epsilon = finite 0 := zero_eq

theorem Tolerance.ge_exact (a b : Extended) : exact.ge a b = true ↔ b ≤ a := by
  rw [ge_eq_true exact_epsilon le_rfl]
  cases a <;> cases b <;> first
    | exact iff_of_true trivial rfl
    | exact iff_of_false id Bool.false_ne_true
    | simp

theorem Tolerance.within_exact {a lower upper : Extended} :
    exact.within a lower upper = true ↔ lower ≤ a ∧ a ≤ upper := by
  rw [within, le, Bool.and_eq_true, ge_exact, ge_exact]

variable {x : Array ℚ}

theorem fetch_map_finite {v : Variable} (known : v < x.size) :
    (x.map finite)[v]? = some (finite (x.getD v 0)) := by
  simp [known]

theorem isFinite_of_map {v : Variable} {a : Extended} (found : (x.map finite)[v]? = some a) :
    Scalar.isFinite a = true := by
  rw [Array.getElem?_map, Option.map_eq_some_iff] at found
  obtain ⟨u, -, rfl⟩ := found
  rfl

theorem Equation.WellFormed.isSatisfied_exact {e : Equation Extended} (formed : e.WellFormed)
    (known : ∀ v, e.Mentions v → v < x.size) :
    e.isSatisfied (x.map finite) .exact = .ok true ↔ e.Holds fun v => x.getD v 0 := by
  rw [formed.isSatisfied_iff Tolerance.exact_epsilon le_rfl, formed.holds_iff_residual]
  constructor
  · rintro ⟨y, given, near⟩
    rw [residual_congr (y := y), ← abs_nonpos_iff]
    · exact near
    · intro v said
      exact finite.inj (Option.some.inj ((fetch_map_finite (known v said)).symm.trans (given v said)))
  · intro holds
    exact ⟨_, fun v said => fetch_map_finite (known v said), abs_nonpos_iff.mpr holds⟩

theorem Relu.isSatisfied_exact {r : Relu} (input : r.b < x.size) (output : r.f < x.size) :
    r.isSatisfied (x.map finite) .exact = .ok true ↔ r.Holds fun v => x.getD v 0 := by
  rw [isSatisfied_eq (fetch_map_finite input) (fetch_map_finite output), outputOf, zero_eq,
    max_finite, Except.ok.injEq, Tolerance.areEqual_finite Tolerance.exact_epsilon le_rfl,
    abs_nonpos_iff, sub_eq_zero]
  rfl

theorem Query.accepts_exact {q : Query Extended} (formed : ∀ e ∈ q.equations, e.WellFormed) :
    q.Accepts .exact x ↔ x.size = q.size ∧ q.Solution fun v => x.getD v 0 := by
  rw [Accepts, isSatisfiedBy_eq_true]
  have entry : ∀ v (given : v < (x.map finite).size), (x.map finite)[v] = finite (x.getD v 0) := by
    intro v given
    have known : v < x.size := by simpa using given
    simp [known]
  have named : x.size = q.size → ∀ e ∈ q.equations, ∀ v, e.Mentions v → v < x.size := by
    rintro size e member v ⟨a, inside, rfl⟩
    exact size ▸ q.equations_known e member a inside
  constructor
  · rintro ⟨size, bounds, equations, relus⟩
    rw [Array.size_map] at size
    refine ⟨size, fun v known => ?_, fun e member => ?_, fun r member => ?_⟩
    · have given : v < (x.map finite).size := by simpa [size] using known
      have inside := bounds v known given
      rw [entry v given, Tolerance.within_exact] at inside
      exact ⟨inside.1, inside.2⟩
    · exact ((formed e member).isSatisfied_exact (named size e member)).mp (equations e member)
    · obtain ⟨input, output⟩ := q.relus_known r member
      exact (Relu.isSatisfied_exact (size ▸ input) (size ▸ output)).mp (relus r member)
  · rintro ⟨size, solution⟩
    refine ⟨by rw [Array.size_map, size], fun v known given => ?_, fun e member => ?_,
      fun r member => ?_⟩
    · rw [entry v given, Tolerance.within_exact]
      exact ⟨(solution.bounds v known).lower, (solution.bounds v known).upper⟩
    · exact ((formed e member).isSatisfied_exact (named size e member)).mpr
        (solution.equations e member)
    · obtain ⟨input, output⟩ := q.relus_known r member
      exact (Relu.isSatisfied_exact (size ▸ input) (size ▸ output)).mpr (solution.relus r member)

end Exact

namespace VariableMap

variable {m : VariableMap Extended} {x s : Array ℚ} {v index : Nat}

@[simp] theorem size_restrict : (m.restrict x).size = m.survivors.length := by simp [restrict]

theorem restrict_of_newIndex (found : m.newIndex? v = some index) :
    (m.restrict x)[index]? = some (x.getD v 0) := by
  rw [restrict, List.getElem?_toArray, List.getElem?_map, (survivors_of_newIndex found).2]
  rfl

theorem valueUnder?_rational
    (fixed : ∀ v a, m.fixedValue? v = some a → Scalar.isFinite a = true) {a : Extended}
    (found : m.valueUnder? v (s.map finite) = some a) : ∃ u, a = finite u := by
  unfold valueUnder? at found
  dsimp only at found
  split at found
  next held =>
    exact isFinite_iff.mp (fixed _ a (Option.some.inj found ▸ held))
  next =>
    obtain ⟨index, -, given⟩ := Option.bind_eq_some_iff.mp found
    rw [Array.getElem?_map, Option.map_eq_some_iff] at given
    obtain ⟨u, -, same⟩ := given
    exact ⟨u, same.symm⟩

theorem mapSolution?_rational
    (fixed : ∀ v a, m.fixedValue? v = some a → Scalar.isFinite a = true)
    {values : Assignment Extended} (mapped : m.mapSolution? (s.map finite) = some values) :
    ∃ x : Array ℚ, values = x.map finite := by
  obtain ⟨size, each⟩ := mapSolution?_eq_some.mp mapped
  refine ⟨values.map toRat, Array.ext (by simp) fun v known _ => ?_⟩
  have found := each v (size ▸ known)
  rw [Array.getElem?_eq_getElem known] at found
  obtain ⟨u, shape⟩ := valueUnder?_rational fixed found
  simp [shape]

end VariableMap

namespace Presolve

variable {q simplified : Query Extended} {effort : Effort Extended} {map : VariableMap Extended}
  {x s : Array ℚ}

theorem returned_rational (regular : q.Regular) (run : simplify q effort = .ok (simplified, map))
    {values : Assignment Extended} (mapped : map.mapSolution? (s.map finite) = some values) :
    ∃ x : Array ℚ, values = x.map finite := by
  obtain ⟨d, tidy, -, rfl⟩ := simplify_tidy regular.equations run
  exact VariableMap.mapSolution?_rational tidy.fixed mapped

theorem restrict_returned (regular : q.Regular) (run : simplify q effort = .ok (simplified, map))
    (returned : map.mapSolution? (s.map finite) = some (x.map finite))
    (size : s.size = simplified.size) : map.restrict x = s := by
  obtain ⟨d, tidy, rebuilt, rfl⟩ := simplify_tidy regular.equations run
  obtain ⟨whole, each⟩ := VariableMap.mapSolution?_eq_some.mp returned
  refine Array.ext (VariableMap.size_restrict.trans (size.trans rebuilt.size).symm)
    fun index inside given => ?_
  have survives : index < d.map.survivors.length := by rwa [VariableMap.size_restrict] at inside
  obtain ⟨kept, found⟩ := VariableMap.newIndex_of_survivors survives
  have known := VariableMap.known_of_isKept kept
  have entered : d.map.survivors[index] < x.size := by
    rwa [← Array.size_map (f := finite), whole]
  have here := (each _ known).symm.trans (VariableMap.valueUnder?_of_newIndex found _)
  rw [fetch_map_finite entered, Array.getElem?_map, Array.getElem?_eq_getElem given] at here
  have placed := VariableMap.restrict_of_newIndex (x := x) found
  rw [Array.getElem?_eq_getElem inside] at placed
  rw [Option.some.inj placed]
  simpa [entered] using here

/-- An orderly draft mentions kept variables only, so a query can be built of it. -/
theorem Draft.Orderly.rebuild_total {α : Type} [Scalar α] {q : Query α} {d : Draft α}
    (orderly : d.Orderly q) (cells : d.store.cells.size = q.size) (relus : ∀ r ∈ q.relus, r.b ≠ r.f) :
    ∃ simplified, rebuild q d = .ok simplified := by
  refine Presolve.rebuild_total (fun v kept => ?_) (fun e member a inside => ?_) (fun r member => ?_)
    (fun v member => ?_) fun v member => ?_
  · have known : v < d.store.cells.size := by
      rw [cells, ← orderly.size]
      exact VariableMap.known_of_isKept kept
    exact ⟨_, Store.interval_of_cell (Array.getElem?_eq_getElem known)⟩
  · exact orderly.kept e member a.var (List.mem_map.mpr ⟨a, inside, rfl⟩)
  · obtain ⟨input, output⟩ := q.relus_known r member
    obtain ⟨shieldedInput, shieldedOutput⟩ := isProtected_of_relu member
    exact ⟨orderly.shielded r.b input shieldedInput, orderly.shielded r.f output shieldedOutput,
      relus r member⟩
  · refine orderly.shielded v (q.inputs_known v member) ?_
    simp [isProtected, Query.isInput, member]
  · refine orderly.shielded v (q.outputs_known v member) ?_
    simp [isProtected, Query.isOutput, member]

theorem Draft.Tidy.rebuild_total {d : Draft Extended} (tidy : d.Tidy q)
    (relus : ∀ r ∈ q.relus, r.b ≠ r.f) : ∃ simplified, rebuild q d = .ok simplified :=
  tidy.orderly.rebuild_total tidy.cells relus

section Exact

variable (precise : effort.tolerance.epsilon = 0) (regular : q.Regular)
include precise regular

theorem simplify_total (accepted : q.Accepts .exact x) :
    ∃ simplified map, simplify q effort = .ok (simplified, map) := by
  obtain ⟨-, solution⟩ := (Query.accepts_exact regular.equations).mp accepted
  obtain ⟨d, tidy, -, run⟩ := simplify_reduces precise regular.equations solution
  obtain ⟨simplified, built⟩ := tidy.rebuild_total regular.relus
  refine ⟨simplified, d.map, ?_⟩
  rw [run, built]
  rfl

variable (run : simplify q effort = .ok (simplified, map))
include run

theorem accepts_restrict (accepted : q.Accepts .exact x) :
    simplified.Accepts .exact (map.restrict x) ∧
      map.mapSolution? ((map.restrict x).map finite) = some (x.map finite) := by
  obtain ⟨size, solution⟩ := (Query.accepts_exact regular.equations).mp accepted
  obtain ⟨d, tidy, solved, rebuilt, rfl⟩ := simplify_solved precise regular.equations solution run
  have restricted : ∀ v index, d.map.newIndex? v = some index →
      (d.map.restrict x)[index]? = some (x.getD v 0) := fun v index found =>
    VariableMap.restrict_of_newIndex found
  constructor
  · refine (Query.accepts_exact (simplify_formed regular.equations run)).mpr
      ⟨VariableMap.size_restrict.trans rebuilt.size.symm, ?_⟩
    refine rebuilt.solution tidy solved solution.relus fun v index found => ?_
    rw [Array.getD_eq_getD_getElem?, restricted v index found]
    rfl
  · refine VariableMap.mapSolution?_eq_some.mpr ⟨?_, fun v known => ?_⟩
    · rw [Array.size_map, size, tidy.size]
    · rw [solved.respected.valueUnder? tidy.settled (fun u index found => ?_) known]
      · exact (fetch_map_finite (size ▸ tidy.size ▸ known)).symm
      · rw [Array.getElem?_map, restricted u index found]
        rfl

end Exact

/-- A solution of the simplified query, up to any tolerance, stands for values of all variables
that are a solution of the query up to the same tolerance. -/
theorem simplify_carries_back {epsilon : ℚ} (same : effort.tolerance.epsilon = finite epsilon)
    (positive : 0 ≤ epsilon) (regular : q.Regular)
    (run : simplify q effort = .ok (simplified, map))
    (accepted : simplified.Accepts effort.tolerance s) :
    ∃ x : Array ℚ, map.mapSolution? (s.map finite) = some (x.map finite) ∧
      q.Accepts effort.tolerance x := by
  obtain ⟨values, mapped, passed⟩ :=
    simplify_translates same positive regular run accepted fun _ _ _ => isFinite_of_map
  obtain ⟨x, rfl⟩ := returned_rational regular run mapped
  exact ⟨x, mapped, passed⟩

/-- One variable is fixed within the tolerance, another one merged away, and the values miss the
equations by less than the tolerance. -/
theorem simplify_carries_back_within_tolerance :
    let effort : Effort Extended := ⟨⟨finite (1 / 1000)⟩, 0, 4⟩
    let reducible : Query Extended := { Query.unconstrained 5 with
      bounds := #v[⟨-1, 1⟩, ⟨0, 3⟩, .all, ⟨1, finite (2001 / 2000)⟩, .all]
      equations := [⟨[⟨1, 2⟩, ⟨-1, 4⟩], 0⟩, ⟨[⟨1, 1⟩, ⟨-1, 4⟩, ⟨1, 3⟩], 1⟩]
      equations_known := by decide
      relus := [⟨0, 1⟩]
      relus_known := by decide
      inputs := [0]
      inputs_known := by decide }
    ∃ simplified map, simplify reducible effort = .ok (simplified, map) ∧
      simplified.Accepts effort.tolerance #[0, 0, 1 / 2000] ∧
      ∃ x : Array ℚ, map.mapSolution? (#[0, 0, 1 / 2000].map finite) = some (x.map finite) ∧
        reducible.Accepts effort.tolerance x := by
  intro effort reducible
  have formed : reducible.WellFormed := by decide +kernel
  have passes : (simplify reducible effort).toOption.map (fun reduced =>
      reduced.1.isSatisfiedBy (#[0, 0, 1 / 2000].map finite) effort.tolerance) =
        some (.ok true) := by decide +kernel
  obtain ⟨⟨simplified, map⟩, run, accepted⟩ := toOption_map_eq_some passes
  exact ⟨simplified, map, run, accepted,
    simplify_carries_back rfl (by norm_num) formed.regular run accepted⟩

/-- Without tolerance a query that has a solution is not refused, and restricting to the kept
variables takes the solutions of a query one to one to those of the simplified query, with the way
back as its inverse. -/
theorem simplify_bijective (precise : effort.tolerance.epsilon = 0) (regular : q.Regular) :
    ((∃ x, q.Accepts .exact x) → ∃ simplified map, simplify q effort = .ok (simplified, map)) ∧
      ∀ simplified map, simplify q effort = .ok (simplified, map) →
        Set.BijOn map.restrict {x | q.Accepts .exact x} {s | simplified.Accepts .exact s} ∧
        ∀ x, q.Accepts .exact x →
          (∀ v index, map.newIndex? v = some index → (map.restrict x)[index]? = x[v]?) ∧
          map.mapSolution? ((map.restrict x).map finite) = some (x.map finite) := by
  refine ⟨fun ⟨x, accepted⟩ => simplify_total precise regular accepted, fun simplified map run => ?_⟩
  have forth := fun {x} => accepts_restrict (x := x) precise regular run
  have exact : effort.tolerance = .exact := congrArg Tolerance.mk precise
  refine ⟨⟨fun x accepted => (forth accepted).1, fun x accepted y also same => ?_,
    fun s accepted => ?_⟩, fun x accepted => ⟨fun v index found => ?_, (forth accepted).2⟩⟩
  · -- values that are restricted alike are carried back alike
    have back := (forth accepted).2
    rw [same, (forth also).2] at back
    have equal := Option.some.inj back
    exact (Array.map_inj_right fun _ _ => finite.inj).mp equal.symm
  · obtain ⟨values, mapped, passed⟩ := simplify_translates (precise.trans zero_eq) le_rfl regular
      run (exact ▸ accepted) fun _ _ _ => isFinite_of_map
    obtain ⟨x, rfl⟩ := returned_rational regular run mapped
    have size := ((Query.accepts_exact (simplify_formed regular.equations run)).mp accepted).1
    exact ⟨x, exact ▸ passed, restrict_returned regular run mapped size⟩
  · have kept := (VariableMap.survivors_of_newIndex found).1
    have whole := (VariableMap.mapSolution?_eq_some.mp (forth accepted).2).1
    have known : v < x.size := by
      rw [← Array.size_map (f := finite), whole]
      exact VariableMap.known_of_isKept kept
    rw [VariableMap.restrict_of_newIndex found]
    simp [known]

/-- The same query, whose solution gives a value to each of the two variables that go. -/
theorem simplify_bijective_reducible :
    let effort : Effort Extended := ⟨⟨0⟩, 0, 4⟩
    let reducible : Query Extended := { Query.unconstrained 5 with
      bounds := #v[⟨-1, 1⟩, ⟨0, 3⟩, .all, ⟨1, 1⟩, .all]
      equations := [⟨[⟨1, 2⟩, ⟨-1, 4⟩], 0⟩, ⟨[⟨1, 1⟩, ⟨-1, 4⟩, ⟨1, 3⟩], 1⟩]
      equations_known := by decide
      relus := [⟨0, 1⟩]
      relus_known := by decide
      inputs := [0]
      inputs_known := by decide }
    ∃ simplified map, simplify reducible effort = .ok (simplified, map) ∧
      Set.BijOn map.restrict {x | reducible.Accepts .exact x} {s | simplified.Accepts .exact s} ∧
      reducible.Accepts .exact #[1, 1, 1, 1, 1] ∧
      map.mapSolution? ((map.restrict #[1, 1, 1, 1, 1]).map finite) =
        some (#[1, 1, 1, 1, 1].map finite) := by
  intro effort reducible
  have formed : reducible.WellFormed := by decide +kernel
  have accepted : reducible.Accepts .exact #[1, 1, 1, 1, 1] := by
    unfold Query.Accepts
    decide +kernel
  have precise : effort.tolerance.epsilon = 0 := rfl
  obtain ⟨total, each⟩ := simplify_bijective precise formed.regular
  obtain ⟨simplified, map, run⟩ := total ⟨_, accepted⟩
  obtain ⟨bijective, back⟩ := each simplified map run
  exact ⟨simplified, map, run, bijective, accepted, (back _ accepted).2⟩

end Presolve

end ReluSolver
