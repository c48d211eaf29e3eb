import ReluSolver.Proofs.ExchangeAgreement

/-! Every candidate satisfies the basis equations. Picked values and repaired ones are rationals,
and the last thing that happens to a candidate is that its basic variables are solved for
with the factorization that the exchanges have left. -/

namespace ReluSolver

open Extended

namespace Searching

variable {β γ : Type} {f : Factorization Extended} {step : Searching Extended β} {promise : β → Prop}

/-- A step leaves the factorization as it is and gives a value as promised, if it succeeds. -/
abbrev Using (f : Factorization Extended) (step : Searching Extended β) (promise : β → Prop) : Prop :=
  Ends (fun s => s.factorization = some f) step (fun value s => s.factorization = some f ∧ promise value)
    fun _ _ => True

namespace Using

theorem bind {next : β → Searching Extended γ} {last : γ → Prop} (first : Using f step promise)
    (rest : ∀ value, promise value → Using f (next value) last) : Using f (step >>= next) last :=
  Ends.bind_kept first rest

theorem pure {value : β} (holds : promise value) :
    Using f (Pure.pure value : Searching Extended β) promise :=
  Ends.pure fun _ held => ⟨held, holds⟩

theorem ofFault (result : Except Fault β) :
    Using f (Searching.ofFault result) fun value => result = .ok value :=
  ofFault_ends fun _ _ _ => trivial

theorem observe (read : Store Extended → Except Fault β) :
    Using f (Searching.observe read) fun _ => True :=
  (observe_ends fun _ _ _ => trivial).mono fun _ _ given => ⟨given.1, trivial⟩

theorem draw (next : RandomStream → Except Fault (β × RandomStream)) :
    Using f (Searching.draw next) fun value => ∃ stream last, next stream = .ok (value, last) := by
  apply Ends.get_bind
  rintro s held
  apply (ofFault_ends fun _ _ _ => trivial).bind
  rintro ⟨value, random⟩
  apply Ends.through fun _ t => t.factorization = some f ∧ next s.random = .ok (value, random)
  · exact .modifyGet fun _ given => ⟨given.1 ▸ held, given.2⟩
  · exact fun _ => .pure fun _ given => ⟨given.1, _, _, given.2⟩

theorem count (change : SearchStatistics → SearchStatistics) :
    Using f (Searching.count change) fun _ => True :=
  .modifyGet fun _ held => ⟨held, trivial⟩

end Using

end Searching

namespace Problem

open Searching

variable {p : Problem Extended} {f : Factorization Extended} {basic : Array Variable}
  {values repaired : Assignment Extended}

structure Rational (p : Problem Extended) (values : Assignment Extended) : Prop where
  whole : p.Whole values
  each : ∀ v, RationalAt v values

theorem Rational.value (rational : p.Rational values) {v : Variable} (known : v < p.query.size) :
    ∃ r : ℚ, values[v]? = some (finite r) := by
  have inside : v < values.size := Nat.lt_of_lt_of_eq known rational.whole.symm
  have found := Array.getElem?_eq_getElem inside
  obtain ⟨r, shape⟩ := isFinite_iff.mp (rational.each v _ found)
  exact ⟨r, found.trans (congrArg some shape)⟩

theorem Rational.replace (rational : p.Rational values) {v : Variable} {a : Extended}
    (given : Scalar.isFinite a = true) (run : replace values v a = .ok repaired) :
    p.Rational repaired where
  whole := by
    rw [← (replace_eq_ok.mp run).2]
    exact Array.size_setIfInBounds.trans rational.whole
  each := fun w => (rational.each w).replace given run

theorem SolvesRows.rational (solves : p.SolvesRows values) (whole : p.Whole values) :
    p.Rational values := by
  obtain ⟨x, given, -⟩ := solves
  refine ⟨whole, fun v a found => ?_⟩
  have known : v < p.query.size := whole ▸ (Array.getElem?_eq_some_iff.mp found).1
  rw [given v known] at found
  exact Option.some.inj found ▸ isFinite_finite _

theorem Rational.repairRelus {relus : List Relu} (rational : p.Rational values)
    (run : p.repairRelus basic values relus = .ok (some repaired)) : p.Rational repaired := by
  refine repairRelus_induct (fun values repaired r _ rational run => ?_) rational run
  obtain ⟨b, f, readB, readF, placed | ⟨value, same, placed⟩⟩ := repairRelu_cases run
  · obtain ⟨r, rfl⟩ := isFinite_iff.mp (rational.each _ b (fetch_eq_ok.mp readB))
    refine rational.replace ?_ placed
    rw [Relu.outputOf, zero_eq, max_finite]
    rfl
  · refine rational.replace ?_ placed
    rcases same with rfl | rfl
    · exact rational.each _ _ (fetch_eq_ok.mp readF)
    · rfl

theorem assignEach_using {pick : Interval Extended → Searching Extended Extended}
    (picks : ∀ bounds, Using f (pick bounds) (Scalar.isFinite · = true)) (vars : List Variable)
    (rational : p.Rational values) : Using f (assignEach pick vars values) p.Rational := by
  induction vars generalizing values with
  | nil => exact .pure rational
  | cons w rest ih =>
    apply (Using.observe _).bind
    intro bounds _
    apply (picks bounds).bind
    intro value given
    apply (Using.ofFault _).bind
    intro changed placed
    exact ih (rational.replace given placed)

section Solving

variable (within : p.basis.Within p.query) (fits : p.Fits f basic)
include within fits

theorem solveBasics_using (rational : p.Rational values) :
    Using f (p.solveBasics basic values) fun solved => p.Rational solved ∧ p.SolvesRows solved := by
  apply Ends.from_state
  intro s held
  have solves := solveBasics_completes within fits held rational.whole fun _ known _ =>
    rational.value known
  refine solves.weaken (fun _ same => same) ?_ fun _ _ _ => trivial
  rintro solved _ ⟨rfl, whole, -, solved⟩
  exact ⟨held, solved.rational whole, solved⟩

theorem repairFor_using (rounds : Nat) (rational : p.Rational values) :
    Using f (p.repairFor basic rounds values) p.Rational := by
  induction rounds generalizing values with
  | zero => exact .pure rational
  | succ rounds ih =>
    apply (solveBasics_using within fits rational).bind
    rintro solved ⟨rational, -⟩
    apply (Using.ofFault _).bind
    intro changed repair
    cases changed with
    | none => exact .pure rational
    | some repaired => exact ih (rational.repairRelus repair)

theorem tryCandidate_using {pick : Interval Extended → Searching Extended Extended}
    (picks : ∀ bounds, Using f (pick bounds) (Scalar.isFinite · = true)) (rational : p.Rational values) :
    Using f (p.tryCandidate basic pick values) fun result =>
      p.Rational result.2 ∧ p.SolvesRows result.2 := by
  apply (assignEach_using picks _ rational).bind
  intro picked rational
  apply (repairFor_using within fits _ rational).bind
  intro repaired rational
  apply (solveBasics_using within fits rational).bind
  rintro candidate solved
  apply (Using.count _).bind
  intro _ _
  apply Ends.get_bind
  intro s held
  split
  · apply Ends.bind (ofFault_ends fun _ _ _ => trivial)
    exact fun passed => .pure fun _ given => ⟨given.1 ▸ held, solved⟩
  · exact .pure fun _ same => ⟨same ▸ held, solved⟩

end Solving

/-- The two ways to pick values: the middle of an interval, and a random number from it. -/
def picks : List (Interval Extended → Searching Extended Extended) :=
  [fun bounds => return bounds.midpoint, fun bounds => draw (·.sample bounds)]

theorem picks_rational {pick : Interval Extended → Searching Extended Extended} (member : pick ∈ picks)
    (bounds : Interval Extended) : Using f (pick bounds) (Scalar.isFinite · = true) := by
  simp only [picks, List.mem_cons, List.not_mem_nil, or_false] at member
  rcases member with rfl | rfl
  · exact .pure bounds.midpoint_finite
  · refine (Using.draw _).mono ?_
    rintro value _ ⟨held, _, _, drawn⟩
    exact ⟨held, RandomStream.sample_finite drawn⟩

/-- The tables and the factorization are about the same variables. -/
structure InStep (p : Problem Extended) (tables : ExchangeTables Extended)
    (f : Factorization Extended) : Prop extends p.Slots tables.basic, p.Agrees tables where
  distinct : tables.basic.toList.Nodup
  represents : BasisMachine.Represents f (p.basis.columns tables.basic)

/-- Exchanges leave the basic variables, their marks and the factorization in step. Solving for the
basic variables then satisfies every basis equation, and so does every candidate. -/
theorem exchangeFixed_candidates {t : Tolerance Extended} {epsilon : ℚ}
    (same : t.epsilon = finite epsilon) (nonneg : 0 ≤ epsilon)
    (formed : ∀ e ∈ p.query.equations, e.WellFormed)
    (computed : CrashBasis.compute p.query t = .ok p.basis)
    {B : Matrix (Fin p.basis.dimension) (Fin p.basis.dimension) ℚ} (entries : p.basis.matrix.Denotes B)
    (reached : BasisMachine.Reached f B) (positive : 0 < f.factored.config.pivotTolerance)
    {s : Session Extended} (held : s.factorization = some f) (stored : s.store.size = p.query.size) :
    ∃ tables g,
      p.exchangeFixedByTables s = .ok tables { s with factorization := some g } ∧
      p.exchangeFixed s = .ok tables.basic { s with factorization := some g } ∧
      p.InStep tables g ∧ ∀ u : Session Extended, u.factorization = some g → ∀ values, p.Whole values →
        ((∀ v < p.query.size, v ∉ tables.basic → ∃ r : ℚ, values[v]? = some (finite r)) →
          p.solveByTables tables values u = p.solveBasics tables.basic values u ∧
          (f.enabled = true → ∃ solved, p.solveBasics tables.basic values u = .ok solved u) ∧
          ∀ solved last, p.solveBasics tables.basic values u = .ok solved last →
            p.Completes tables.basic values solved) ∧
        (p.Rational values → ∀ pick ∈ picks, ∀ found candidate last,
          p.tryCandidate tables.basic pick values u = .ok (found, candidate) last →
            p.Rational candidate ∧ p.SolvesRows candidate) := by
  have within := CrashBasis.compute_within formed computed
  obtain rfl : B = p.basis.rates := by
    ext i j
    exact finite.inj ((entries i j).symm.trans (CrashBasis.matrix_denotes within.formed i j))
  have fits := Fits.start within (CrashBasis.compute_isUnit same nonneg formed computed) reached positive
  have start : p.Holding s f.enabled p.freshTables.basic s := ⟨f, by rw [← held], rfl, fits⟩
  obtain ⟨tables, _, byTables, plain, agrees, g, rfl, enabled, fits⟩ :=
    exchangeByTables_eq within stored (fun k member => List.mem_range.mp member) freshTables_agrees start
  refine ⟨tables, g, byTables, plain, ?_, fun u factored values whole => ⟨fun rational => ?_, ?_⟩⟩
  · exact ⟨fits.toSlots, agrees, fits.distinct, fits.represents⟩
  · have solves := solveBasics_completes within fits factored whole rational
    refine ⟨by rw [solveByTables_eq within agrees], fun able => ?_, fun solved last run => ?_⟩
    · cases run : p.solveBasics tables.basic values u with
      | ok solved last => exact ⟨solved, by rw [(solves.ok rfl run).1]⟩
      | error cause last =>
        rw [← enabled, solves.error rfl run] at able
        cases able
    · exact (solves.ok rfl run).2.2
  · intro rational pick member found candidate last run
    exact ((tryCandidate_using within fits (picks_rational member) rational).ok factored run).2

/-- The pivot of the first exchange is too small. The second one goes through, past a variable that
is fixed, and the basis is factorized anew for it. -/
theorem exchangeFixed_candidates_refused :
    let t : Tolerance Extended := ⟨Tolerance.defaultEpsilon⟩
    let first : Equation Extended := ⟨[⟨2, 0⟩, ⟨1, 1⟩, ⟨1, 2⟩, ⟨1, 3⟩], 3⟩
    let second : Equation Extended := ⟨[⟨1, 0⟩, ⟨-1, 1⟩, ⟨-1 / 2, 3⟩], 6⟩
    let q : Query Extended := { Query.unconstrained 4 with
      equations := [first, second]
      inputs := [2, 3]
      equations_known := by decide
      inputs_known := by decide }
    let b : CrashBasis Extended := ⟨[⟨0, first, 0⟩, ⟨1, second, 1⟩], [2, 3]⟩
    let p : Problem Extended := ⟨q, b, [], ⟨t, 0, 1⟩, SearchConfig.default, .polarity⟩
    let fixed : Cell Extended := ⟨⟨1, 1⟩, false, false⟩
    let store : Store Extended := ⟨#[fixed, fixed, fixed, .unbounded], .empty, .absent, t⟩
    CrashBasis.compute q t = .ok b ∧ ∃ s f, s.store = store ∧ s.factorization = some f ∧
      BasisMachine.Reached f !![2, 1; 1, -1] ∧ ∃ tables g solved,
        p.exchangeFixedByTables s = .ok tables { s with factorization := some g } ∧
        tables.basic = #[0, 3] ∧ tables.isBasic = #[true, false, false, true] ∧ p.InStep tables g ∧
        p.solveBasics #[0, 3] #[0, 1, 1, 0] { s with factorization := some g } =
          .ok solved { s with factorization := some g } ∧
        p.Completes #[0, 3] #[0, 1, 1, 0] solved := by
  intro t first second q b p fixed store
  let config : FactorConfig Extended := ⟨1 / 2, 1⟩
  let session (f : Factorization Extended) : Session Extended :=
    ⟨store, [], some f, .ofSeed 0, [], false, .zero⟩
  have evaluated : (do
      let f ← BasisMachine.Change.perform (Factorization.create .forrestTomlin 2 config)
        (.setBasis #[2, 1, 1, -1])
      match p.exchangeFixedByTables (session f) with
      | .ok tables _ =>
        .ok (tables.basic, tables.isBasic, f.enabled, decide (0 < f.factored.config.pivotTolerance))
      | .error _ _ => .error (.singular 0)) =
      .ok (#[0, 3], #[true, false, false, true], true, true) := by decide +kernel
  obtain ⟨f, set, evaluated⟩ := bind_eq_ok.mp evaluated
  have start : BasisMachine.Reached _ (1 : Matrix (Fin 2) (Fin 2) ℚ) := .identity .forrestTomlin config
  have reached := start.change set
  have matrix : BasisMachine.Change.onMatrix (1 : Matrix (Fin 2) (Fin 2) ℚ) (.setBasis #[2, 1, 1, -1]) =
      !![2, 1; 1, -1] := by decide +kernel
  rw [matrix] at reached
  have entries : p.basis.matrix.Denotes !![2, 1; 1, -1] := by
    unfold Square.Denotes ReluSolver.Denotes
    decide +kernel
  have formed : ∀ e ∈ p.query.equations, e.WellFormed := by decide +kernel
  have computed : CrashBasis.compute p.query t = .ok p.basis := by decide +kernel
  have same : t.epsilon = finite (1 / 10 ^ 9) := by decide +kernel
  cases run : p.exchangeFixedByTables (session f) with
  | error cause last =>
    rw [run] at evaluated
    cases evaluated
  | ok tables last =>
    rw [run] at evaluated
    obtain ⟨basic, marks, enabled, positive⟩ : tables.basic = #[0, 3] ∧
        tables.isBasic = #[true, false, false, true] ∧ f.enabled = true ∧
        0 < f.factored.config.pivotTolerance := by simpa using evaluated
    have held : (session f).factorization = some f := rfl
    have stored : (session f).store.size = p.query.size := rfl
    obtain ⟨_, g, byTables, -, inStep, solves⟩ := exchangeFixed_candidates same (by norm_num)
      formed computed entries reached positive held stored
    obtain ⟨rfl, rfl⟩ := EStateM.Result.ok.inj (run.symm.trans byTables)
    rw [basic] at solves
    obtain ⟨each, -⟩ := solves { session f with factorization := some g } rfl #[0, 1, 1, 0] rfl
    have rational : ∀ v < 4, v ∉ #[0, 3] → ∃ r : ℚ, #[0, 1, 1, 0][v]? = some (finite r) := by
      intro v known free
      obtain rfl | rfl : v = 1 ∨ v = 2 := by
        simp only [List.mem_toArray, List.mem_cons, List.not_mem_nil] at free
        omega
      · exact ⟨1, by decide +kernel⟩
      · exact ⟨1, by decide +kernel⟩
    obtain ⟨-, answers, completes⟩ := each rational
    obtain ⟨solved, answered⟩ := answers enabled
    exact ⟨computed, session f, f, rfl, rfl, reached, tables, g, solved, byTables, basic, marks, inStep,
      answered, completes _ _ answered⟩

end Problem

end ReluSolver
