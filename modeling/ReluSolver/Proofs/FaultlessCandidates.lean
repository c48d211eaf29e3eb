import ReluSolver.Proofs.DerivedRows
import ReluSolver.Proofs.FaultlessDeduction
import ReluSolver.Proofs.LooseVariables

/-! Looking for a solution breaks no call, whatever the bounds and the factorization
are. Every value and every basic variable that is read or written has a place, and
every interval that a number is drawn from has one. -/

namespace ReluSolver

open Extended

section Places

variable {β : Type} {values : Array β} {i : Nat}

theorem fetch_total (inside : i < values.size) : ∃ value, fetch values i = .ok value :=
  ⟨_, fetch_eq_ok.mpr (Array.getElem?_eq_getElem inside)⟩

theorem replace_total (inside : i < values.size) (value : β) :
    ∃ changed, replace values i value = .ok changed ∧ changed.size = values.size :=
  ⟨_, replace_eq_ok.mpr ⟨inside, rfl⟩, Array.size_setIfInBounds⟩

end Places

section Known

variable {α : Type} [Scalar α] {size : Nat}

theorem Store.isFixed_total {s : Store α} (sized : s.size = size) {v : Variable} (known : v < size) :
    ∃ fixed, s.isFixed v = .ok fixed := by
  have inside : v < s.cells.size := Nat.lt_of_lt_of_eq known sized.symm
  have cell : s.cell .storeFixed v = .ok s.cells[v] := by
    simp [Store.cell, Array.getElem?_eq_getElem inside]
  exact ⟨_, bind_eq_ok.mpr ⟨_, cell, rfl⟩⟩

theorem Factorization.forward_size {f : Factorization α} {y solved : Array α} {size : Nat}
    (run : f.forward y size = .ok solved) : solved.size = size := by
  obtain ⟨_, -, run⟩ := bind_eq_ok.mp run
  obtain ⟨_, checked, run⟩ := bind_eq_ok.mp run
  obtain ⟨x, -, run⟩ := bind_eq_ok.mp run
  unfold checkLength at checked
  split at checked
  next same => exact Except.ok.inj run ▸ x.size_toArray.trans same
  next => cases checked

variable {values : Assignment α}

theorem products_total {addends : List (Addend α)} (known : ∀ a ∈ addends, a.var < values.size) :
    ∃ products, addends.mapM (fun a => return a.coefficient * (← fetch values a.var)) =
      (.ok products : Except Fault _) := by
  have each : ∀ a ∈ addends, ∃ product,
      (return a.coefficient * (← fetch values a.var) : Except Fault α) = .ok product ∧ True := by
    intro a member
    obtain ⟨value, found⟩ := fetch_total (known a member)
    exact ⟨_, bind_eq_ok.mpr ⟨value, found, rfl⟩, trivial⟩
  obtain ⟨products, run, -⟩ := mapM_total each
  exact ⟨products, run⟩

theorem Query.allOf_total {β : Type} {entries : List β} {check : β → Except Fault Bool}
    (each : ∀ entry ∈ entries, ∃ passed, check entry = .ok passed) :
    ∃ passed, allOf entries check = .ok passed := by
  induction entries with
  | nil => exact ⟨true, rfl⟩
  | cons entry rest ih =>
    obtain ⟨here, checked⟩ := each entry (by simp)
    obtain ⟨later, run⟩ := ih fun other member => each other (by simp [member])
    unfold allOf
    rw [checked]
    cases here with
    | true => exact ⟨later, run⟩
    | false => exact ⟨false, rfl⟩

theorem Query.isSatisfiedBy_total (q : Query α) (values : Assignment α) (t : Tolerance α) :
    ∃ passed, q.isSatisfiedBy values t = .ok passed := by
  unfold isSatisfiedBy
  split
  · exact ⟨false, rfl⟩
  next sizes =>
    have sized : values.size = q.size := by simpa using sizes
    dsimp only
    split
    · exact ⟨false, rfl⟩
    · have equations : ∀ e ∈ q.equations, ∃ passed, e.isSatisfied values t = .ok passed := by
        intro e member
        obtain ⟨products, run⟩ := products_total fun a inside =>
          Nat.lt_of_lt_of_eq (q.equations_known e member a inside) sized.symm
        exact ⟨_, bind_eq_ok.mpr ⟨_, bind_eq_ok.mpr ⟨products, run, rfl⟩, rfl⟩⟩
      have relus : ∀ r ∈ q.relus, ∃ passed, r.isSatisfied values t = .ok passed := by
        intro r member
        obtain ⟨input, output⟩ := q.relus_known r member
        obtain ⟨f, readF⟩ := fetch_total (Nat.lt_of_lt_of_eq output sized.symm)
        obtain ⟨b, readB⟩ := fetch_total (Nat.lt_of_lt_of_eq input sized.symm)
        exact ⟨_, bind_eq_ok.mpr ⟨f, readF, bind_eq_ok.mpr ⟨b, readB, rfl⟩⟩⟩
      obtain ⟨first, checked⟩ := allOf_total equations
      obtain ⟨second, run⟩ := allOf_total relus
      rw [checked]
      cases first with
      | true => exact ⟨second, run⟩
      | false => exact ⟨false, rfl⟩

end Known

namespace RandomStream

variable (s : RandomStream)

theorem within_total {l u : ℚ} (ordered : l ≤ u) :
    ∃ drawn, s.within (⟨finite l, finite u⟩ : Interval Extended) = .ok drawn := by
  obtain ⟨g, nonzero, greatest⟩ : ∃ g : ℚ, g ≠ 0 ∧
      ((resolution - 1) / resolution : Extended) = finite g := by
    have whole : (resolution : Extended) = finite 4503599627370496 := by
      simpa [resolution] using ofNat_eq 4503599627370496
    refine ⟨(4503599627370496 - 1) / 4503599627370496, by norm_num, ?_⟩
    rw [whole, one_eq, sub_finite, div_finite _ (by norm_num)]
  have fitted : fitScale (⟨finite l, finite u⟩ : Interval Extended) (finite g) fitLimit
      (finite ((u - l) / g)) = .ok (finite ((u - l) / g)) := by
    rw [fitLimit, fitScale, mul_finite, add_finite, div_mul_cancel₀ _ nonzero, sub_add_cancel,
      if_neg (by simp)]
  unfold within
  simp only [greatest, sub_finite, div_finite _ nonzero, isFinite_finite, le_finite, ordered, fitted]
  exact ⟨_, rfl⟩

theorem sample_total (i : Interval Extended) : ∃ drawn, s.sample i = .ok drawn := by
  unfold sample
  split
  next lower upper =>
    obtain ⟨l, shape⟩ := isFinite_iff.mp lower
    obtain ⟨u, shape'⟩ := isFinite_iff.mp upper
    split
    next ordered =>
      rw [shape, shape', lt_finite] at ordered
      obtain ⟨drawn, run⟩ := s.within_total ordered.le
      rw [shape, shape', sub_finite, isFinite_finite, if_pos rfl]
      exact ⟨drawn, by rwa [← shape, ← shape'] at run⟩
    next => exact ⟨_, rfl⟩
  all_goals exact ⟨_, rfl⟩

end RandomStream

/-- Something the search works with has refused to go on, but no call was broken. -/
def Abort.IsFailure (cause : Abort) : Prop := ∃ reason, cause = .failure reason

namespace Searching

variable {β γ : Type} {size : Nat} {step : Searching Extended β} {promise : β → Prop}

theorem ofFault_ok {result : Except Fault β} {value : β} (run : result = .ok value)
    {next : β → Searching Extended γ} {pre : Session Extended → Prop}
    {last : γ → Session Extended → Prop} {stuck : Abort → Session Extended → Prop}
    (rest : Ends pre (next value) last stuck) : Ends pre (ofFault result >>= next) last stuck := by
  subst run
  exact rest

/-- On bounds of `size` variables a step breaks no call and gives a value as promised, unless the
factorization refuses it. -/
abbrev Faultless (size : Nat) (step : Searching Extended β) (promise : β → Prop) : Prop :=
  Ends (fun s => s.store.size = size) step (fun value s => s.store.size = size ∧ promise value)
    fun cause _ => cause.IsFailure

namespace Faultless

theorem bind {next : β → Searching Extended γ} {last : γ → Prop} (first : Faultless size step promise)
    (rest : ∀ value, promise value → Faultless size (next value) last) :
    Faultless size (step >>= next) last :=
  Ends.bind_kept first rest

theorem pure {value : β} (holds : promise value) :
    Faultless size (Pure.pure value : Searching Extended β) promise :=
  Ends.pure fun _ sized => ⟨sized, holds⟩

theorem get : Faultless size (MonadState.get : Searching Extended (Session Extended))
    fun s => s.store.size = size :=
  Ends.get fun _ sized => ⟨sized, sized⟩

theorem ofFault {result : Except Fault β} (total : ∃ value, result = .ok value ∧ promise value) :
    Faultless size (Searching.ofFault result) promise := by
  obtain ⟨value, rfl, holds⟩ := total
  exact pure holds

theorem ofFactor (result : Except FactorError β) :
    Faultless size (Searching.ofFactor result) fun value => result = .ok value := by
  cases result with
  | ok value => exact pure rfl
  | error cause => exact .throw fun _ _ => ⟨_, rfl⟩

theorem observe {f : Store Extended → Except Fault β}
    (total : ∀ s, s.size = size → ∃ value, f s = .ok value) :
    Faultless size (Searching.observe f) fun _ => True :=
  get.bind fun s sized => by
    obtain ⟨value, read⟩ := total s.store sized
    exact ofFault ⟨value, read, trivial⟩

theorem draw {f : RandomStream → Except Fault (β × RandomStream)}
    (total : ∀ stream, ∃ drawn, f stream = .ok drawn) :
    Faultless size (Searching.draw f) fun _ => True :=
  get.bind fun s _ => by
    obtain ⟨⟨value, random⟩, run⟩ := total s.random
    apply ofFault_ok run
    exact Ends.through (fun _ s => s.store.size = size) (.modifyGet fun _ sized => sized)
      fun _ => .pure fun _ sized => ⟨sized, trivial⟩

theorem count (change : SearchStatistics → SearchStatistics) :
    Faultless size (Searching.count change) fun _ => True :=
  .modifyGet fun _ sized => ⟨sized, trivial⟩

end Faultless

end Searching

/-- A query has every variable that a crash basis and the rows derived from it are about. -/
structure Query.Knows (q : Query Extended) (b : CrashBasis Extended)
    (derived : List (Equation Extended)) : Prop where
  basis : b.Within q
  derived : ∀ row ∈ derived, ∀ a ∈ row.addends, a.var < q.size

namespace Problem

open Searching

variable {p : Problem Extended}

/-- One basic variable of the query for each row of the basis. -/
structure Slots (p : Problem Extended) (basic : Array Variable) : Prop where
  size : basic.size = p.basis.dimension
  known : ∀ x ∈ basic, x < p.query.size

abbrev Whole (p : Problem Extended) (values : Assignment Extended) : Prop :=
  values.size = p.query.size

theorem exchangeColumn?_total (f : Factorization Extended) {k : Nat} (inside : k < p.basis.dimension)
    (x : Variable) : ∃ found, p.exchangeColumn? f k x = .ok found := by
  unfold exchangeColumn?
  split
  · exact ⟨none, rfl⟩
  next column run =>
    obtain ⟨a, entry⟩ := fetch_total (Factorization.forward_size run ▸ inside)
    exact ⟨_, bind_eq_ok.mpr ⟨a, entry, rfl⟩⟩

theorem findEntering_total (f : Factorization Extended) {s : Store Extended}
    (sized : s.size = p.query.size) (basic : Array Variable) {k : Nat} (inside : k < p.basis.dimension)
    (attempts : Nat) {candidates : List Variable} (known : ∀ x ∈ candidates, x < p.query.size) :
    ∃ result, p.findEntering f s basic k attempts candidates = .ok result ∧
      ∀ found ∈ result.1, found.1 < p.query.size := by
  induction candidates generalizing attempts with
  | nil => exact ⟨(none, attempts), rfl, by simp⟩
  | cons x rest ih =>
    have here := known x (by simp)
    have later := fun attempts => ih attempts fun y member => known y (by simp [member])
    obtain ⟨fixed, read⟩ := s.isFixed_total sized here
    unfold findEntering
    rw [read]
    simp only [bind, Except.bind]
    split
    · exact later attempts
    · split
      · exact ⟨(none, 0), rfl, by simp⟩
      next left =>
        obtain ⟨found, searched⟩ := p.exchangeColumn?_total f inside x
        rw [searched]
        cases found with
        | none => exact later left
        | some column => exact ⟨(some (x, column), left), rfl, by simpa using here⟩

theorem exchangeAt_faultless (knows : p.query.Knows p.basis p.derived) {basic : Array Variable}
    (slots : p.Slots basic) (attempts : Nat) {positions : List Nat}
    (inside : ∀ k ∈ positions, k < p.basis.dimension) :
    Faultless p.query.size (p.exchangeAt basic attempts positions) p.Slots := by
  induction positions generalizing basic attempts with
  | nil =>
    unfold exchangeAt
    exact .pure slots
  | cons k rest ih =>
    have here := inside k (by simp)
    have later := fun {basic} (slots : p.Slots basic) attempts =>
      ih slots attempts fun k member => inside k (by simp [member])
    cases attempts with
    | zero => exact .pure slots
    | succ attempts =>
      apply Faultless.get.bind
      intro s sized
      have placed : k < basic.size := Nat.lt_of_lt_of_eq here slots.size.symm
      have known := slots.known _ (Array.getElem_mem placed)
      apply ofFault_ok (fetch_eq_ok.mpr (Array.getElem?_eq_getElem placed))
      split
      next => exact Faultless.pure slots
      next f _ =>
        apply (Faultless.observe fun s sized => s.isFixed_total sized known).bind
        intro fixed _
        split
        next =>
          have others : ∀ x ∈ p.basis.nonBasic, x < p.query.size := by
            rw [knows.basis.nonBasic]
            exact fun x member => List.mem_range.mp (List.mem_filter.mp member).1
          obtain ⟨⟨found, left⟩, searched, entered⟩ :=
            p.findEntering_total f sized basic here (attempts + 1) others
          apply ofFault_ok searched
          dsimp only
          split
          next => exact later slots _
          next entering column =>
            split
            next exchanged _ =>
              have kept : Faultless p.query.size (MonadStateOf.set
                  { s with factorization := some exchanged } : Searching Extended PUnit)
                  fun _ => True := .set fun _ _ => ⟨sized, trivial⟩
              apply kept.bind
              intro _ _
              obtain ⟨changed, written, same⟩ := replace_total placed entering
              apply ofFault_ok written
              refine later ⟨same.trans slots.size, fun y member => ?_⟩ _
              rw [← (replace_eq_ok.mp written).2] at member
              rcases Array.mem_or_eq_of_mem_setIfInBounds member with old | rfl
              · exact slots.known y old
              · exact entered (y, column) rfl
            next => exact later slots _
            next => exact .throw fun _ _ => ⟨_, rfl⟩
        next => exact later slots _

theorem remainder_total (knows : p.query.Knows p.basis p.derived) (basic : Array Variable)
    {values : Assignment Extended} (whole : p.Whole values) {row : BasisRow Extended}
    (member : row ∈ p.basis.rows) : ∃ rest, remainder basic values row.equation = .ok rest := by
  have known : ∀ a ∈ row.equation.addends.filter fun a => !basic.contains a.var,
      a.var < values.size := fun a inside =>
    Nat.lt_of_lt_of_eq (knows.basis.known row member a (List.mem_of_mem_filter inside)) whole.symm
  obtain ⟨products, run⟩ := products_total known
  exact ⟨_, bind_eq_ok.mpr ⟨products, run, rfl⟩⟩

theorem Slots.write_total {basic : Array Variable} (slots : p.Slots basic) (solved : Array Extended)
    {values : Assignment Extended} (whole : p.Whole values) :
    ∃ last, (List.zip basic.toList solved.toList).foldlM
      (fun values (x, value) => replace values x value) values = .ok last ∧ p.Whole last := by
  refine foldlM_total whole ?_
  rintro values ⟨x, value⟩ member whole
  have known := slots.known x (Array.mem_toList_iff.mp (List.of_mem_zip member).1)
  obtain ⟨changed, written, same⟩ := replace_total (Nat.lt_of_lt_of_eq known whole.symm) value
  exact ⟨changed, written, same.trans whole⟩

theorem solveBasics_faultless (knows : p.query.Knows p.basis p.derived) {basic : Array Variable}
    (slots : p.Slots basic) {values : Assignment Extended} (whole : p.Whole values) :
    Faultless p.query.size (p.solveBasics basic values) p.Whole := by
  apply Faultless.get.bind
  intro s _
  split
  next => exact .pure whole
  next f _ =>
    split
    next => exact .pure whole
    next =>
      have each : ∀ row ∈ p.basis.rows, ∃ rest,
          remainder basic values row.equation = .ok rest ∧ True := by
        intro row member
        obtain ⟨rest, run⟩ := remainder_total knows basic whole member
        exact ⟨rest, run, trivial⟩
      obtain ⟨right, read, -⟩ := mapM_total each
      apply ofFault_ok read
      exact (Faultless.ofFactor _).bind fun solved _ => .ofFault (slots.write_total solved whole)

theorem repairRelu_total (basic : Array Variable) {values : Assignment Extended}
    (whole : p.Whole values) {r : Relu} (member : r ∈ p.query.relus) :
    ∃ changed, p.repairRelu basic values r = .ok changed ∧ ∀ repaired ∈ changed, p.Whole repaired := by
  obtain ⟨knownB, knownF⟩ := p.query.relus_known r member
  have input : r.b < values.size := Nat.lt_of_lt_of_eq knownB whole.symm
  have output : r.f < values.size := Nat.lt_of_lt_of_eq knownF whole.symm
  have writes : ∀ {x : Nat} (value : Extended), x < values.size → ∃ changed,
      (return some (← replace values x value) : Except Fault _) = .ok changed ∧
        ∀ repaired ∈ changed, p.Whole repaired := by
    intro x value inside
    obtain ⟨changed, written, same⟩ := replace_total inside value
    exact ⟨some changed, bind_eq_ok.mpr ⟨changed, written, rfl⟩, by simpa using same.trans whole⟩
  obtain ⟨b, readB⟩ := fetch_total input
  obtain ⟨f, readF⟩ := fetch_total output
  unfold repairRelu
  rw [readB, readF]
  simp only [bind, Except.bind]
  split
  · exact ⟨none, rfl, by simp⟩
  split
  · exact writes _ output
  split
  · exact ⟨none, rfl, by simp⟩
  split
  · exact writes _ input
  split
  · exact writes _ input
  · exact ⟨none, rfl, by simp⟩

theorem repairRelus_total (basic : Array Variable) {relus : List Relu} (among : relus ⊆ p.query.relus)
    {values : Assignment Extended} (whole : p.Whole values) :
    ∃ changed, p.repairRelus basic values relus = .ok changed ∧
      ∀ repaired ∈ changed, p.Whole repaired := by
  induction relus generalizing values with
  | nil => exact ⟨none, rfl, by simp⟩
  | cons r rest ih =>
    have later := @ih fun o member => among (List.mem_cons_of_mem r member)
    have member : r ∈ p.query.relus := among (by simp)
    obtain ⟨first, here, kept⟩ := repairRelu_total basic whole member
    cases first with
    | none =>
      obtain ⟨changed, run, keeps⟩ := later whole
      exact ⟨changed, bind_eq_ok.mpr ⟨_, here, run⟩, keeps⟩
    | some repaired =>
      have whole := kept repaired rfl
      obtain ⟨others, run, keeps⟩ := later whole
      refine ⟨_, bind_eq_ok.mpr ⟨_, here, bind_eq_ok.mpr ⟨others, run, rfl⟩⟩, ?_⟩
      rintro _ ⟨⟩
      cases others with
      | none => exact whole
      | some last => exact keeps last rfl

theorem repairFor_faultless (knows : p.query.Knows p.basis p.derived) {basic : Array Variable}
    (slots : p.Slots basic) (rounds : Nat) {values : Assignment Extended} (whole : p.Whole values) :
    Faultless p.query.size (p.repairFor basic rounds values) p.Whole := by
  induction rounds generalizing values with
  | zero => exact .pure whole
  | succ rounds ih =>
    apply (solveBasics_faultless knows slots whole).bind
    intro solved whole
    obtain ⟨changed, repair, kept⟩ := repairRelus_total basic (List.Subset.refl _) whole
    apply ofFault_ok repair
    cases changed with
    | none => exact Faultless.pure whole
    | some repaired => exact ih (kept repaired rfl)

theorem assignEach_faultless {pick : Interval Extended → Searching Extended Extended}
    (picks : ∀ bounds, Faultless p.query.size (pick bounds) fun _ => True) {vars : List Variable}
    (known : ∀ x ∈ vars, x < p.query.size) {values : Assignment Extended} (whole : p.Whole values) :
    Faultless p.query.size (assignEach pick vars values) p.Whole := by
  induction vars generalizing values with
  | nil => exact .pure whole
  | cons x rest ih =>
    have here := known x (by simp)
    apply (Faultless.observe fun s sized => (s.interval_total sized here).imp fun _ both => both.1).bind
    intro bounds _
    apply (picks bounds).bind
    intro value _
    obtain ⟨changed, written, same⟩ := replace_total (Nat.lt_of_lt_of_eq here whole.symm) value
    apply ofFault_ok written
    exact ih (fun y member => known y (by simp [member])) (same.trans whole)

theorem tryCandidate_faultless (knows : p.query.Knows p.basis p.derived) {basic : Array Variable}
    (slots : p.Slots basic) {pick : Interval Extended → Searching Extended Extended}
    (picks : ∀ bounds, Faultless p.query.size (pick bounds) fun _ => True)
    {values : Assignment Extended} (whole : p.Whole values) :
    Faultless p.query.size (p.tryCandidate basic pick values) fun result => p.Whole result.2 := by
  have known : ∀ x ∈ p.query.allVariables.filter fun x => !basic.contains x, x < p.query.size :=
    fun x member => List.mem_range.mp (List.mem_of_mem_filter member)
  apply (assignEach_faultless picks known whole).bind
  intro picked whole
  apply (repairFor_faultless knows slots _ whole).bind
  intro repaired whole
  apply (solveBasics_faultless knows slots whole).bind
  intro candidate whole
  apply (Faultless.count _).bind
  intro _ _
  apply Faultless.get.bind
  intro s _
  split
  · obtain ⟨passed, run⟩ := p.query.isSatisfiedBy_total candidate p.effort.tolerance
    exact ofFault_ok run (Faultless.pure whole)
  · exact .pure whole

theorem tryRandom_faultless (knows : p.query.Knows p.basis p.derived) {basic : Array Variable}
    (slots : p.Slots basic) (attempts : Nat) {values : Assignment Extended} (whole : p.Whole values) :
    Faultless p.query.size (p.tryRandom basic attempts values) fun _ => True := by
  induction attempts generalizing values with
  | zero => exact .pure trivial
  | succ attempts ih =>
    apply (tryCandidate_faultless knows slots
      (fun bounds => .draw fun stream => stream.sample_total bounds) whole).bind
    rintro ⟨isSolution, candidate⟩ whole
    dsimp only
    split
    · exact .pure trivial
    · exact ih whole

theorem tryCandidates_faultless (knows : p.query.Knows p.basis p.derived) :
    Faultless p.query.size p.tryCandidates fun _ => True := by
  have slots : p.Slots p.basis.basic.toArray := by
    refine ⟨by simp [CrashBasis.basic], fun x member => ?_⟩
    obtain ⟨row, listed, rfl⟩ := List.mem_map.mp (List.mem_toArray.mp member)
    exact knows.basis.basic row listed
  apply (exchangeAt_faultless knows slots _ fun k member => List.mem_range.mp member).bind
  intro basic slots
  apply (tryCandidate_faultless knows slots (fun _ => .pure trivial) Array.size_replicate).bind
  rintro ⟨isSolution, candidate⟩ whole
  dsimp only
  split
  · exact .pure trivial
  · exact tryRandom_faultless knows slots _ whole

/-- Looking for a solution comes back to the same place of the search tree, and breaks no call. -/
theorem findSolution_faultless (knows : p.query.Knows p.basis p.derived) {start : Session Extended}
    (sized : start.store.size = p.query.size) :
    Ends (· = start) p.findSolution (fun _ => start.SameTree)
      fun cause _ => cause.IsFailure := by
  intro _ same
  rw [same]
  have kept := findSolution_keeps p start start (.refl start)
  have tried := tryCandidates_faultless knows start sized
  cases run : p.findSolution start with
  | ok found last =>
    rw [run] at kept
    exact kept.1
  | error cause last =>
    unfold findSolution at run
    split at run
    · cases run
    · split at run
      next => cases run
      next inner =>
        cases run
        exact ⟨_, rfl⟩
      next inner =>
        rw [inner] at tried
        obtain ⟨reason, impossible⟩ := tried
        cases impossible

end Problem

end ReluSolver
