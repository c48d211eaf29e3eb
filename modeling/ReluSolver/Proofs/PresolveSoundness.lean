import ReluSolver.Proofs.PresolveRebuild
import ReluSolver.Proofs.PresolveReductions

/-! Simplifying a query loses no solution: what it finds out holds of every solution,
and the kept variables of a solution solve the simplified query. -/

namespace ReluSolver.Presolve

open Extended

/-- A solution of the query, as seen from a draft. -/
structure Draft.SolvedBy (q : Query Extended) (x : Variable → ℚ) (d : Draft Extended) : Prop where
  encloses : d.store.Encloses q.size x
  equations : ∀ e ∈ d.equations, e.residual x = 0
  respected : d.map.Respected fun v => finite (x v)

variable {q : Query Extended} {t : Tolerance Extended} {d : Draft Extended} {x : Variable → ℚ}

section Exact

variable (precise : t.epsilon = 0)
include precise

theorem eq_of_isFixed {c : Cell Extended} {r : ℚ} (lower : c.bounds.lower = finite r)
    (fixed : c.isFixed t = true) {value : ℚ} (inside : c.bounds.Contains value) : value = r := by
  have same : t.epsilon = finite 0 := by simpa using precise
  rw [Cell.isFixed, lower] at fixed
  have above := inside.lower
  rw [lower, le_finite] at above
  rcases finite_le_cases inside.upper with unbounded | ⟨u, upper, below⟩
  · rw [unbounded, Tolerance.areEqual, same] at fixed
    cases fixed
  · rw [upper, Tolerance.areEqual_finite same (le_refl _), abs_nonpos_iff, sub_eq_zero] at fixed
    exact le_antisymm (fixed ▸ below) above

theorem fixVariables_solved (tidy : d.Tidy q) (solved : d.SolvedBy q x) :
    (fixVariables q t d).SolvedBy q x := by
  unfold fixVariables
  generalize q.allVariables = vars
  induction vars generalizing d with
  | nil => exact solved
  | cons v rest ih =>
    rw [List.foldl_cons]
    unfold fixVariable
    split
    next value found =>
      obtain ⟨-, kept, c, cell, rfl, finiteLower, fixed⟩ := fixedAt?_spec found
      obtain ⟨r, lower⟩ := isFinite_iff.mp finiteLower
      have here : x v = r := eq_of_isFixed precise lower fixed (solved.encloses.admits v c cell)
      refine ih ((Reduces.refl.fix found).tidy tidy) ⟨solved.encloses, ?_, ?_⟩
      · intro e member
        obtain ⟨old, inside, rfl⟩ := List.mem_map.mp member
        rw [lower, ((tidy.formed old inside).fix_spec v r).2.1 x here]
        exact solved.equations old inside
      · exact (VariableMap.fix_respected kept).mpr ⟨solved.respected, by rw [here, lower]⟩
    next => exact ih tidy solved

theorem mergePair_solved (tidy : d.Tidy q) (solved : d.SolvedBy q x) :
    ∃ merged, mergePair q t d = .ok merged ∧ merged.SolvedBy q x := by
  unfold mergePair
  split
  · exact ⟨d, rfl, solved⟩
  next source target found =>
    obtain ⟨apart, keptSource, keptTarget, -⟩ := tidy.orderly.pair found
    have equal : x source = x target := by
      obtain ⟨e, member, paired⟩ := List.exists_of_findSome?_eq_some found
      obtain ⟨-, -, first, second, shape, rfl, rfl, zero, opposite⟩ := aliasPair?_spec paired
      have formed := tidy.formed e member
      have same : t.epsilon = finite 0 := by simpa using precise
      have holds := solved.equations e member
      rw [formed.scalar_eq, Tolerance.isZero_finite same, abs_nonpos_iff] at zero
      rw [formed.coefficient_eq (show first ∈ e.addends by simp [shape]),
        formed.coefficient_eq (show second ∈ e.addends by simp [shape]), neg_finite,
        Tolerance.areEqual_finite same (le_refl _), abs_nonpos_iff, sub_eq_zero] at opposite
      have nonzero := formed.coefficient_ne_zero (show second ∈ e.addends by simp [shape])
      rw [Equation.residual, Equation.left, zero, shape] at holds
      simp only [List.map_cons, List.map_nil, List.sum_cons, List.sum_nil, opposite] at holds
      have product : second.coefficient.toRat * (x second.var - x first.var) = 0 := by linarith
      exact sub_eq_zero.mp ((mul_eq_zero.mp product).resolve_left nonzero)
    have small : target < q.size := tidy.size ▸ VariableMap.known_of_isKept keptTarget
    have smallSource : source < q.size := tidy.size ▸ VariableMap.known_of_isKept keptSource
    obtain ⟨held, interval, -, -, inside⟩ := solved.encloses.interval_eq smallSource
    obtain ⟨outcome, s, run, feasible, encloses⟩ :=
      (Store.tightenBounds_encloses small (equal ▸ inside)).run solved.encloses
    refine ⟨⟨s, d.equations.map (·.merge source target), d.map.merge source target⟩,
      bind_eq_ok.mpr ⟨held, mapError_eq_ok.mpr interval, ?_⟩, encloses, ?_, ?_⟩
    · rw [run]
      cases outcome with
      | infeasible => exact absurd rfl feasible
      | accepted | rejected => rfl
    · intro e member
      obtain ⟨old, within, rfl⟩ := List.mem_map.mp member
      rw [((tidy.formed old within).merge_spec apart).2.1 x equal]
      exact solved.equations old within
    · exact (VariableMap.merge_respected keptSource).mpr ⟨solved.respected, by rw [equal]⟩

theorem dropEmpty_solved (tidy : d.Tidy q) (solved : d.SolvedBy q x) :
    ∃ next, dropEmpty t d = .ok next ∧ next.SolvedBy q x := by
  unfold dropEmpty
  split
  next conflict =>
    obtain ⟨e, member, contradictory⟩ := List.any_eq_true.mp conflict
    rw [Bool.and_eq_true] at contradictory
    have formed := tidy.formed e member
    have holds := solved.equations e member
    have same : t.epsilon = finite 0 := by simpa using precise
    rw [Equation.residual, Equation.left, List.isEmpty_iff.mp contradictory.1] at holds
    have zero : t.isZero e.scalar = true := by
      rw [formed.scalar_eq, Tolerance.isZero_finite same, abs_nonpos_iff]
      simpa using holds
    simp [zero] at contradictory
  next =>
    exact ⟨_, rfl, solved.encloses, fun e member => solved.equations e (List.mem_of_mem_filter member),
      solved.respected⟩

end Exact

theorem rounds_solved {effort : Effort Extended} (precise : effort.tolerance.epsilon = 0)
    (hold : ∀ r ∈ q.relus, r.Holds x) {fuel : Nat} (enough : remaining d < fuel) (tidy : d.Tidy q)
    (solved : d.SolvedBy q x) :
    ∃ last, rounds q effort fuel d = .ok last ∧ last.SolvedBy q x := by
  induction fuel generalizing d with
  | zero => omega
  | succ fuel ih =>
    have rows : Effort.Satisfied q.size x d.equations := by
      refine ⟨tidy.formed, fun e member a inside => ?_, fun e member => ?_⟩
      · exact tidy.size ▸ VariableMap.known_of_isKept (tidy.kept e member a.var ⟨a, inside, rfl⟩)
      · exact (tidy.formed e member).holds_iff_residual.mpr (solved.equations e member)
    have none : Effort.Satisfied q.size x [] := ⟨nofun, nofun, nofun⟩
    obtain ⟨news, s, propagated, encloses⟩ :=
      (Effort.propagate_encloses precise rows none hold q.relus_known).run solved.encloses
    have tightened := (effort.propagate_tightened d.store d.equations [] q.relus).ok .refl propagated
    have reached := (Reduces.refl (q := q) (t := effort.tolerance)).tighten tightened
    have entered : ({ d with store := s } : Draft Extended).SolvedBy q x :=
      ⟨encloses, solved.equations, solved.respected⟩
    have fixed := fixVariables_solved precise (reached.tidy tidy) entered
    rw [rounds_propagated propagated]
    obtain ⟨merged, mergedRun, mergedSolved⟩ :=
      mergePair_solved precise (reached.fixVariables.tidy tidy) fixed
    have reachedMerged := reached.fixVariables.mergePair mergedRun
    obtain ⟨next, nextRun, nextSolved⟩ :=
      dropEmpty_solved precise (reachedMerged.tidy tidy) mergedSolved
    by_cases less : remaining next < remaining d
    · obtain ⟨last, later, lastSolved⟩ :=
        ih (by omega) ((reachedMerged.dropEmpty nextRun).tidy tidy) nextSolved
      refine ⟨last, bind_eq_ok.mpr ⟨merged, mergedRun, bind_eq_ok.mpr ⟨next, nextRun, ?_⟩⟩, lastSolved⟩
      rwa [if_pos less]
    · refine ⟨next, bind_eq_ok.mpr ⟨merged, mergedRun, bind_eq_ok.mpr ⟨next, nextRun, ?_⟩⟩, nextSolved⟩
      rw [if_neg less]
      rfl

/-- A store that was tightened to the bounds of a query. -/
structure Entered {α : Type} [Scalar α] (q : Query α) (t : Tolerance α) (s : Store α) : Prop where
  run : ∃ empty outcome, (Store.new t).initialize? q.size = .ok empty ∧
    (Store.tightenFrom 0 q.bounds.toList : Store.Action Fault α Outcome) empty = .ok outcome s ∧
    outcome ≠ .infeasible

theorem storeWithin_empty {α : Type} [Scalar α] {q : Query α} {t : Tolerance α} {outcome : Outcome}
    {s : Store α} (run : q.storeWithin .empty t = .ok (outcome, s))
    (feasible : outcome.isInfeasible = false) : Entered q t s := by
  obtain ⟨empty, initialized, run⟩ := bind_eq_ok.mp run
  split at run
  next entered =>
    obtain ⟨rfl, rfl⟩ := Prod.mk.inj (Except.ok.inj run)
    obtain ⟨first, between, tightened, entered⟩ := run_bind_eq_ok.mp entered
    split at entered
    next infeasible =>
      obtain ⟨rfl, rfl⟩ := EStateM.Result.ok.inj entered
      cases feasible.symm.trans infeasible
    next notInfeasible =>
      obtain ⟨_, _, nothing, entered⟩ := run_bind_eq_ok.mp entered
      obtain ⟨rfl, rfl⟩ := EStateM.Result.ok.inj nothing
      obtain ⟨-, rfl⟩ := EStateM.Result.ok.inj entered
      refine ⟨empty, first, initialized, tightened, ?_⟩
      rintro rfl
      exact notInfeasible rfl
  next => cases run

theorem simplify_stages {α : Type} [Scalar α] {q simplified : Query α} {effort : Effort α}
    {map : VariableMap α} (run : simplify q effort = .ok (simplified, map)) :
    ∃ s d, Entered q effort.tolerance s ∧
      Reduces q effort.tolerance ⟨s, q.equations, .identity q.size⟩ d ∧
      rebuild q d = .ok simplified ∧ map = d.map := by
  obtain ⟨⟨outcome, s⟩, entered, run⟩ := bind_eq_ok.mp run
  dsimp only at run
  split at run
  · cases run
  next feasible =>
    obtain ⟨d, reduced, run⟩ := bind_eq_ok.mp run
    obtain ⟨built, rebuilt, run⟩ := bind_eq_ok.mp run
    obtain ⟨rfl, rfl⟩ := Prod.mk.inj (Except.ok.inj run)
    exact ⟨s, d, storeWithin_empty (mapError_eq_ok.mp entered) (by simpa using feasible),
      rounds_reduces .refl reduced, mapError_eq_ok.mp rebuilt, rfl⟩

theorem simplify_eq_ok {α : Type} [Scalar α] {q simplified : Query α} {effort : Effort α}
    {map : VariableMap α} (run : simplify q effort = .ok (simplified, map)) :
    ∃ s d, Entered q effort.tolerance s ∧
      Reduces q effort.tolerance ⟨s, q.equations, .identity q.size⟩ d ∧
      Rebuilt q d simplified ∧ map = d.map := by
  obtain ⟨s, d, entered, reduces, built, same⟩ := simplify_stages run
  exact ⟨s, d, entered, reduces, rebuild_rebuilt built, same⟩

theorem Entered.tidy {s : Store Extended} (entered : Entered q t s)
    (formed : ∀ e ∈ q.equations, e.WellFormed) :
    (⟨s, q.equations, .identity q.size⟩ : Draft Extended).Tidy q := by
  obtain ⟨empty, outcome, initialized, tightened, -⟩ := entered.run
  have narrowed := (Store.tightenFrom_tightened empty 0 _).ok .refl tightened
  obtain rfl := Store.initialize_eq_ok initialized
  have start := Draft.orderly_start (s := s) fun e member => (formed e member).distinct
  refine ⟨start.size, ?_, narrowed.defined ?_, formed,
    fun e member v said => start.kept e member v (List.mem_map.mpr said), start.shielded, start.settled,
    ?_, ?_⟩
  · exact narrowed.size_eq.trans (by simp [Store.size])
  · intro v c found
    obtain ⟨-, rfl⟩ : v < q.size ∧ Cell.unbounded = c := by
      simpa [Array.getElem?_replicate] using found
    refine ⟨?_, ?_⟩ <;> (intro same; cases same)
  · simp [VariableMap.fixedValue?_identity]
  · simp [VariableMap.target?_identity]

theorem simplify_tidy {effort : Effort Extended} (formed : ∀ e ∈ q.equations, e.WellFormed)
    {simplified : Query Extended} {map : VariableMap Extended}
    (run : simplify q effort = .ok (simplified, map)) :
    ∃ d : Draft Extended, d.Tidy q ∧ Rebuilt q d simplified ∧ map = d.map := by
  obtain ⟨s, d, entered, reduces, rebuilt, same⟩ := simplify_eq_ok run
  exact ⟨d, reduces.tidy (entered.tidy formed), rebuilt, same⟩

theorem simplify_formed {effort : Effort Extended} (formed : ∀ e ∈ q.equations, e.WellFormed)
    {simplified : Query Extended} {map : VariableMap Extended}
    (run : simplify q effort = .ok (simplified, map)) : ∀ e ∈ simplified.equations, e.WellFormed := by
  obtain ⟨d, tidy, rebuilt, -⟩ := simplify_tidy formed run
  intro renamed member
  obtain ⟨e, inside, named⟩ := forall₂_mem_right rebuilt.equations member
  exact ((tidy.formed e inside).rename_spec named fun u v i first second =>
    VariableMap.newIndex_injective (newIndex_eq_ok.mp first) (newIndex_eq_ok.mp second)).1

theorem Rebuilt.solution {simplified : Query Extended} (rebuilt : Rebuilt q d simplified)
    (tidy : d.Tidy q) (solved : d.SolvedBy q x) (hold : ∀ r ∈ q.relus, r.Holds x)
    {y : Variable → ℚ} (value : ∀ v i, d.map.newIndex? v = some i → y i = x v) :
    simplified.Solution y := by
  refine ⟨fun i known => ?_, fun renamed member => ?_, fun renamed member => ?_⟩
  · have inside : i < d.map.survivors.length := rebuilt.size ▸ known
    obtain ⟨kept, found⟩ := VariableMap.newIndex_of_survivors inside
    obtain ⟨held, interval, placed⟩ := rebuilt.bounds _ _ found
    obtain ⟨other, interval', -, -, contains⟩ :=
      solved.encloses.interval_eq (tidy.size ▸ VariableMap.known_of_isKept kept)
    obtain rfl : other = held := Except.ok.inj (interval'.symm.trans interval)
    rw [value _ _ found]
    obtain ⟨_, same⟩ := Vector.getElem?_eq_some_iff.mp placed
    exact same ▸ contains
  · obtain ⟨e, inside, named⟩ := forall₂_mem_right rebuilt.equations member
    have spec := (tidy.formed e inside).rename_spec named fun u v i first second =>
      VariableMap.newIndex_injective (newIndex_eq_ok.mp first) (newIndex_eq_ok.mp second)
    rw [spec.1.holds_iff_residual, spec.2.1 x _ fun v i found => value v i (newIndex_eq_ok.mp found)]
    exact solved.equations e inside
  · obtain ⟨r, inside, input, output⟩ := forall₂_mem_right rebuilt.relus member
    rw [Relu.Holds, value _ _ input, value _ _ output]
    exact hold r inside

theorem storeWithin_solved (precise : t.epsilon = 0) (solution : q.Solution x) :
    ∃ outcome s, q.storeWithin .empty t = .ok (outcome, s) ∧ outcome.isInfeasible = false ∧
      s.Encloses q.size x := by
  have entered : Returns (Store.Encloses q.size x) (q.enter .empty)
      fun outcome last => outcome ≠ .infeasible ∧ last.Encloses q.size x := by
    have bounds : Returns (Store.Encloses q.size x) (Store.tightenFrom 0 q.bounds.toList) _ :=
      Store.tightenFrom_encloses (by simp) fun v known => by
        simpa using solution.bounds v (by simpa using known)
    apply bounds.bind
    intro first
    apply Ends.from_state
    rintro s ⟨feasible, encloses⟩
    cases first with
    | infeasible => exact absurd rfl feasible
    | accepted | rejected => exact .pure fun _ same => ⟨nofun, same ▸ encloses⟩
  have initialized : (Store.new t).initialize? q.size = .ok (α := Store Extended) _ := rfl
  obtain ⟨outcome, s, run, feasible, encloses⟩ :=
    entered.run (Store.initialize_encloses (x := x) (by simp [precise]) initialized)
  refine ⟨outcome, s, ?_, ?_, encloses⟩
  · refine bind_eq_ok.mpr ⟨_, initialized, ?_⟩
    rw [run]
    rfl
  · cases outcome with
    | infeasible => exact absurd rfl feasible
    | accepted | rejected => rfl

/-- A query with a solution is reduced to a draft that the solution satisfies. -/
theorem simplify_reduces {effort : Effort Extended} (precise : effort.tolerance.epsilon = 0)
    (formed : ∀ e ∈ q.equations, e.WellFormed) (solution : q.Solution x) :
    ∃ d : Draft Extended, d.Tidy q ∧ d.SolvedBy q x ∧
      simplify q effort =
        ((rebuild q d).mapError Setback.fault).map fun simplified => (simplified, d.map) := by
  obtain ⟨outcome, s, entered, feasible, encloses⟩ := storeWithin_solved precise solution
  have tidy := (storeWithin_empty entered feasible).tidy formed
  have start : (⟨s, q.equations, .identity q.size⟩ : Draft Extended).SolvedBy q x :=
    ⟨encloses, fun e member =>
      (formed e member).holds_iff_residual.mp (solution.equations e member),
      VariableMap.identity_respected _ _⟩
  obtain ⟨d, reduced, solved⟩ := rounds_solved precise solution.relus (Nat.lt_succ_self _) tidy start
  refine ⟨d, (rounds_reduces .refl reduced).tidy tidy, solved, ?_⟩
  unfold simplify
  rw [entered]
  change (if outcome.isInfeasible = true then _ else _) = _
  rw [feasible]
  change (rounds q effort _ _ >>= _) = _
  rw [reduced]
  change ((rebuild q d).mapError Setback.fault >>= _) = _
  cases rebuild q d <;> rfl

theorem simplify_ne_conflict {effort : Effort Extended} (precise : effort.tolerance.epsilon = 0)
    (formed : ∀ e ∈ q.equations, e.WellFormed) (solution : q.Solution x) :
    simplify q effort ≠ .error .conflict := by
  obtain ⟨d, -, -, run⟩ := simplify_reduces precise formed solution
  rw [run]
  cases rebuild q d <;> exact nofun

/-- What is found out about a query holds of its solutions, also after it is simplified. -/
theorem simplify_solved {effort : Effort Extended} (precise : effort.tolerance.epsilon = 0)
    (formed : ∀ e ∈ q.equations, e.WellFormed) (solution : q.Solution x) {simplified : Query Extended}
    {map : VariableMap Extended} (run : simplify q effort = .ok (simplified, map)) :
    ∃ d : Draft Extended, d.Tidy q ∧ d.SolvedBy q x ∧ Rebuilt q d simplified ∧ map = d.map := by
  obtain ⟨d, tidy, solved, shape⟩ := simplify_reduces precise formed solution
  rw [shape] at run
  cases built : rebuild q d with
  | error cause =>
    rw [built] at run
    cases run
  | ok rebuilt =>
    rw [built] at run
    obtain ⟨rfl, rfl⟩ := Prod.mk.inj (Except.ok.inj run)
    exact ⟨d, tidy, solved, rebuild_rebuilt built, rfl⟩

end ReluSolver.Presolve
