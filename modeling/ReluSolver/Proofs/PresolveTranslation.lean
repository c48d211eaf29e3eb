import ReluSolver.Proofs.EquationTest
import ReluSolver.Proofs.PresolveSoundness

/-! A solution of a simplified query stands for a solution of the query: what was fixed,
merged and dropped on the way is satisfied up to the tolerance as well. -/

namespace ReluSolver

open Extended

theorem Relu.isSatisfied_eq {r : Relu} {values : Assignment Extended} {b f : Extended}
    (input : values[r.b]? = some b) (output : values[r.f]? = some f) {t : Tolerance Extended} :
    r.isSatisfied values t = .ok (t.areEqual f (outputOf b)) := by
  rw [isSatisfied, fetch_eq_ok.mpr output, fetch_eq_ok.mpr input]
  rfl

namespace Presolve

variable {q simplified : Query Extended} {t : Tolerance Extended} {d : Draft Extended}
  {solution : Assignment Extended} {value : Variable → Extended} {epsilon : ℚ}

theorem isProtected_of_relu {α : Type} {q : Query α} {r : Relu} (member : r ∈ q.relus) :
    isProtected q r.b = true ∧ isProtected q r.f = true := by
  constructor <;>
    · rw [isProtected, Bool.or_eq_true]
      exact .inr (List.any_eq_true.mpr ⟨r, member, by simp [Relu.participates]⟩)

/-- Values of all variables that say the same as a solution for the kept ones. -/
structure Extends (m : VariableMap Extended) (solution : Assignment Extended)
    (value : Variable → Extended) : Prop where
  respected : m.Respected value
  numbered : ∀ v index, m.newIndex? v = some index → solution[index]? = some (value v)

theorem Rebuilt.allows (rebuilt : Rebuilt q d simplified)
    (satisfied : simplified.isSatisfiedBy solution t = .ok true)
    (carried : Extends d.map solution value) : d.Allows t value := by
  refine ⟨carried.respected, fun v kept c cell => ?_⟩
  obtain ⟨index, found, -⟩ := VariableMap.newIndex_of_isKept kept
  obtain ⟨i, interval, placed⟩ := rebuilt.bounds v index found
  rw [Store.interval_of_cell cell] at interval
  obtain rfl := Except.ok.inj interval
  obtain ⟨known, bounds⟩ := Vector.getElem?_eq_some_iff.mp placed
  obtain ⟨given, same⟩ := Array.getElem?_eq_some_iff.mp (carried.numbered v index found)
  have within := (Query.isSatisfiedBy_eq_true.mp satisfied).2.1 index known given
  rwa [bounds, same] at within

theorem Rebuilt.equation_test (rebuilt : Rebuilt q d simplified) (tidy : d.Tidy q)
    (same : t.epsilon = finite epsilon) (positive : 0 ≤ epsilon)
    (satisfied : simplified.isSatisfiedBy solution t = .ok true)
    (carried : Extends d.map solution value) {e : Equation Extended} (member : e ∈ d.equations) :
    (∀ v, e.Mentions v → value v = finite (value v).toRat) ∧
      |e.residual fun v => (value v).toRat| ≤ epsilon := by
  obtain ⟨renamed, inside, named⟩ := forall₂_mem_right rebuilt.equations.flip member
  obtain ⟨formed, residual, mentions⟩ := (tidy.formed e member).rename_spec named
    fun u v i first second =>
      VariableMap.newIndex_injective (newIndex_eq_ok.mp first) (newIndex_eq_ok.mp second)
  obtain ⟨y, given, near⟩ := (formed.isSatisfied_iff same positive).mp
    ((Query.isSatisfiedBy_eq_true.mp satisfied).2.2.1 renamed inside)
  have agree : ∀ v index, newIndex d.map v = .ok index →
      ((solution[index]?).getD undefined).toRat = (value v).toRat := by
    intro v index found
    rw [carried.numbered v index (newIndex_eq_ok.mp found)]
    rfl
  constructor
  · intro v said
    obtain ⟨index, found, -⟩ := VariableMap.newIndex_of_isKept (tidy.kept e member v said)
    have here := given index ((mentions index).mpr ⟨v, said, newIndex_eq_ok.mpr found⟩)
    rw [carried.numbered v index found] at here
    rw [Option.some.inj here, toRat_finite]
  · rw [← residual (fun v => (value v).toRat)
      (fun index => ((solution[index]?).getD undefined).toRat) agree]
    rwa [Equation.residual_congr (y := y)]
    intro index said
    rw [given index said]
    rfl

theorem Rebuilt.fits (rebuilt : Rebuilt q d simplified) (tidy : d.Tidy q)
    (same : t.epsilon = finite epsilon) (positive : 0 ≤ epsilon)
    (satisfied : simplified.isSatisfiedBy solution t = .ok true)
    (carried : Extends d.map solution value) : d.Fits epsilon fun v => (value v).toRat := by
  refine ⟨⟨fun v a fixed => ?_, fun v target merged => ?_⟩, fun e member =>
    (rebuilt.equation_test tidy same positive satisfied carried member).2⟩
  · obtain ⟨r, rfl⟩ := isFinite_iff.mp (tidy.fixed v a fixed)
    dsimp only
    rw [carried.respected.fixed v _ fixed, toRat_finite]
  · dsimp only
    rw [carried.respected.merged v target merged]

section Rational

variable (rebuilt : Rebuilt q d simplified) (tidy : d.Tidy q) (same : t.epsilon = finite epsilon)
  (positive : 0 ≤ epsilon) (satisfied : simplified.isSatisfiedBy solution t = .ok true)
  (loose : ∀ v, simplified.Loose v → ∀ a, solution[v]? = some a → Scalar.isFinite a = true)
  (carried : Extends d.map solution value)
include rebuilt tidy same positive satisfied carried

include loose in
theorem rational_of_kept {v : Variable} (kept : d.map.isKept v = true)
    (free : isProtected q v = false) : ∃ u, value v = finite u := by
  obtain ⟨index, found, -⟩ := VariableMap.newIndex_of_isKept kept
  -- An equation that passed its test is about rationals; without one the variable is loose.
  by_cases said : ∃ e ∈ d.equations, e.Mentions v
  · obtain ⟨e, member, said⟩ := said
    exact ⟨_, (rebuilt.equation_test tidy same positive satisfied carried member).1 v said⟩
  · refine isFinite_iff.mp (loose index ⟨?_, ?_⟩ _ (carried.numbered v index found))
    · intro renamed inside mentioned
      obtain ⟨e, member, named⟩ := forall₂_mem_right rebuilt.equations inside
      obtain ⟨-, -, mentions⟩ := (tidy.formed e member).rename_spec named
        fun u v i first second =>
          VariableMap.newIndex_injective (newIndex_eq_ok.mp first) (newIndex_eq_ok.mp second)
      obtain ⟨u, before, place⟩ := (mentions index).mp mentioned
      obtain rfl := VariableMap.newIndex_injective (newIndex_eq_ok.mp place) found
      exact said ⟨e, member, before⟩
    · intro renamed inside
      obtain ⟨r, member, input, output⟩ := forall₂_mem_right rebuilt.relus inside
      obtain ⟨first, second⟩ := isProtected_of_relu member
      constructor <;> rintro rfl
      · obtain rfl := VariableMap.newIndex_injective input found
        cases free.symm.trans first
      · obtain rfl := VariableMap.newIndex_injective output found
        cases free.symm.trans second

include loose in
theorem rational_of_free {v : Variable} (known : v < q.size) (free : isProtected q v = false) :
    ∃ u, value v = finite u := by
  have each : ∀ steps v, isProtected q v = false →
      value (d.map.follow steps v) = value v ∧ isProtected q (d.map.follow steps v) = false := by
    intro steps
    induction steps with
    | zero => exact fun v free => ⟨rfl, free⟩
    | succ steps ih =>
      intro v free
      unfold VariableMap.follow
      cases found : d.map.target? v with
      | none => exact ⟨rfl, free⟩
      | some target =>
        obtain ⟨equal, after⟩ := ih target (tidy.free v target found)
        exact ⟨equal.trans (carried.respected.merged v target found).symm, after⟩
  obtain ⟨equal, freeEnd⟩ := each d.map.size v free
  rw [← equal]
  change ∃ u, value (d.map.representative v) = finite u
  rcases VariableMap.fate_cases (tidy.settled.representative_known (tidy.size ▸ known)) with
    kept | ⟨a, fixed⟩ | ⟨target, merged⟩
  · exact rational_of_kept rebuilt tidy same positive satisfied loose carried kept freeEnd
  · rw [carried.respected.fixed _ a fixed]
    exact isFinite_iff.mp (tidy.fixed _ a fixed)
  · cases (tidy.settled.representative_end v).symm.trans merged

include loose in
theorem rational_of_mentioned {start : Draft Extended} (first : start.Tidy q)
    (reduces : Reduces q t start d) {e : Equation Extended} (among : e ∈ start.equations) {v : Variable}
    (known : v < q.size) (said : e.Mentions v) : value v = finite (value v).toRat := by
  cases shielded : isProtected q v with
  | true =>
    obtain ⟨other, member, said⟩ := reduces.mentions first shielded ⟨e, among, said⟩
    exact (rebuilt.equation_test tidy same positive satisfied carried member).1 _ said
  | false =>
    obtain ⟨u, shape⟩ :=
      rational_of_free rebuilt tidy same positive satisfied loose carried known shielded
    rw [shape, toRat_finite]

end Rational

theorem Entered.within (same : t.epsilon = finite epsilon) (positive : 0 ≤ epsilon)
    (regular : q.Regular) {s : Store Extended} (entered : Entered q t s) {v : Variable}
    {a : Extended} (known : v < q.size) (allows : s.Allows t v a) :
    t.within a q.bounds[v].lower q.bounds[v].upper = true := by
  obtain ⟨empty, outcome, -, tightened, feasible⟩ := entered.run
  have defined : ∀ interval ∈ q.bounds.toList,
      interval.lower ≠ undefined ∧ interval.upper ≠ undefined := by
    intro interval member
    obtain ⟨w, small, rfl⟩ := List.mem_iff_getElem.mp member
    simpa using regular.bounds w (by simpa using small)
  have within := Store.tightenFrom_within same positive defined tightened feasible
    (show v < q.bounds.toList.length by simpa using known) (by simpa using allows)
  simpa using within

/-- A solution of the simplified query is carried back to a solution of the query. -/
theorem simplify_translates {effort : Effort Extended} {map : VariableMap Extended}
    (same : effort.tolerance.epsilon = finite epsilon) (positive : 0 ≤ epsilon)
    (regular : q.Regular) (run : simplify q effort = .ok (simplified, map))
    (satisfied : simplified.isSatisfiedBy solution effort.tolerance = .ok true)
    (loose : ∀ v, simplified.Loose v → ∀ a, solution[v]? = some a → Scalar.isFinite a = true) :
    ∃ values, map.mapSolution? solution = some values ∧
      q.isSatisfiedBy values effort.tolerance = .ok true := by
  obtain ⟨s, d, entered, reduces, rebuilt, rfl⟩ := simplify_eq_ok run
  have start := entered.tidy regular.equations
  have tidy := reduces.tidy start
  have whole := (Query.isSatisfiedBy_eq_true.mp satisfied).1.trans rebuilt.size
  obtain ⟨values, mapped, size, value, respected, given, numbered⟩ :=
    VariableMap.mapSolution?_spec tidy.settled whole
  have carried : Extends d.map solution value := ⟨respected, numbered⟩
  have full : values.size = q.size := size.trans tidy.size
  have present : ∀ v, v < q.size → values[v]? = some (value v) := fun v known =>
    given v (tidy.size ▸ known)
  refine ⟨values, mapped, Query.isSatisfiedBy_eq_true.mpr ⟨full, ?_, ?_, ?_⟩⟩
  · intro v known inside
    have allows := (reduces.allows same positive start (rebuilt.allows satisfied carried)).2 v
      (VariableMap.isKept_identity.mpr known)
    have here : values[v] = value v := Option.some.inj
      ((Array.getElem?_eq_getElem inside).symm.trans (present v known))
    rw [here]
    exact entered.within same positive regular known allows
  · intro e member
    have fits := reduces.fits same start (rebuilt.fits tidy same positive satisfied carried)
    refine ((regular.equations e member).isSatisfied_iff same positive).mpr
      ⟨_, fun v said => ?_, fits.2 e member⟩
    obtain ⟨a, inside, rfl⟩ := said
    have known := q.equations_known e member a inside
    rw [present _ known, ← rational_of_mentioned rebuilt tidy same positive satisfied loose carried
      start reduces member known ⟨a, inside, rfl⟩]
  · intro r member
    obtain ⟨renamed, inside, input, output⟩ := forall₂_mem_right rebuilt.relus.flip member
    have passed := (Query.isSatisfiedBy_eq_true.mp satisfied).2.2.2 renamed inside
    obtain ⟨knownInput, knownOutput⟩ := q.relus_known r member
    rw [Relu.isSatisfied_eq (numbered _ _ input) (numbered _ _ output)] at passed
    rw [Relu.isSatisfied_eq (present _ knownInput) (present _ knownOutput), passed]

end Presolve

end ReluSolver
