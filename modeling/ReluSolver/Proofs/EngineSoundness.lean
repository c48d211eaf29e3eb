import ReluSolver.Proofs.DerivedRows
import ReluSolver.Proofs.SearchCoverage
import ReluSolver.Search.DepthFirst

/-! The engine never excludes a solution of its query: neither when it loads the query,
nor when it decides a region, also if it starts from the tree state of an earlier
decision about a region around it. -/

namespace ReluSolver

open Extended

def TreeState.Admits (state : TreeState Extended) (x : Variable → ℚ) : Prop :=
  ∀ v (known : v < state.bounds.bounds.size), state.bounds.bounds[v].Contains (x v)

theorem Store.Encloses.snapshot_admits {size : Nat} {x : Variable → ℚ} {s : Store Extended}
    (encloses : s.Encloses size x) (f : Option (Factorization Extended)) :
    (TreeState.mk s.snapshot f).Admits x := by
  intro v known
  have inside : v < s.cells.size := by simpa [Store.snapshot] using known
  simpa [Store.snapshot] using encloses.admits v _ (Array.getElem?_eq_getElem inside)

theorem Store.initialize_saved {size : Nat} {t : Tolerance Extended} {s : Store Extended}
    (run : (Store.new t).initialize? size = .ok s) : s.saved = [] := by
  obtain rfl := Store.initialize_eq_ok run
  rfl

theorem TreeState.Admits.applySnapshot {state : TreeState Extended} {x : Variable → ℚ}
    (admitted : state.Admits x) {size : Nat} {s last : Store Extended} (encloses : s.Encloses size x)
    {outcome : Outcome} (applied : Store.applySnapshot state.bounds s = .ok (.ok outcome) last) :
    outcome ≠ .infeasible ∧ last.Encloses size x := by
  have result : Ends (·.Encloses size x) (Store.applySnapshot state.bounds) (fun result last =>
      ∀ outcome, result = .ok outcome → outcome ≠ .infeasible ∧ last.Encloses size x)
      fun _ _ => False := by
    apply Ends.get_bind
    intro s encloses
    split
    · exact .pure fun _ _ => nofun
    next sizes =>
      have same : state.bounds.bounds.size = s.size := by simpa using sizes
      have fits : 0 + state.bounds.bounds.toList.length ≤ size := by
        rw [← encloses.size_eq, zero_add, Array.length_toList, same]
        exact le_refl _
      have inside : ∀ v (known : v < state.bounds.bounds.toList.length),
          state.bounds.bounds.toList[v].Contains (x (0 + v)) := by
        intro v known
        simpa using admitted v (by simpa using known)
      have entered := (Store.tightenFrom_encloses fits inside).here encloses
      apply entered.bind
      intro outcome
      refine .pure fun _ kept other same => ?_
      obtain rfl := Except.ok.inj same
      exact kept
  exact result.ok encloses applied outcome rfl

theorem SearchConfig.effort_valid {c : SearchConfig Extended} {effort : Effort Extended}
    (made : c.effort = .ok effort) :
    effort.tolerance = ⟨c.epsilon⟩ ∧ ∃ r : ℚ, c.epsilon = finite r ∧ 0 ≤ r := by
  obtain ⟨t, toleranceMade, same⟩ := bind_eq_ok.mp made
  obtain rfl := Except.ok.inj same
  exact Tolerance.ofEpsilon_valid toleranceMade

theorem SearchEngine.solveWithin_ends {ε α : Type} [SearchEngine ε α] {split : CaseSplit α}
    {limit : Duration} {state : Option (TreeState α)} {pre : ε → Prop}
    {reached : Option ExitCode → ε → Prop} {stuck : Fault → ε → Prop}
    (begins : Ends pre (start split limit state) reached stuck)
    (goesOn : ∀ signals, Ends (reached none) (advance signals) reached stuck)
    (unfinished : ∀ e, reached none e → stuck .unfinished e) (fuel : Nat) (world : Nat → Signals) :
    Ends pre (solveWithin fuel world split limit state) (fun code => reached (some code)) stuck := by
  have carried : ∀ fuel step, Ends (reached none) (advanceFor world step fuel)
      (fun code => reached (some code)) stuck := by
    intro fuel
    induction fuel with
    | zero => exact fun _ => .throw unfinished
    | succ fuel ih =>
      intro step
      apply (goesOn (world step)).bind
      intro outcome
      cases outcome with
      | some code => exact .pure fun _ ended => ended
      | none => exact ih (step + 1)
  apply begins.bind
  intro outcome
  cases outcome with
  | some code => exact .pure fun _ ended => ended
  | none => exact carried fuel 1

namespace DepthFirst

section Steps

variable {α β : Type} {pre : DepthFirst α → Prop} {stuck : Abort → DepthFirst α → Prop}

theorem ofFault_ends {result : Except Fault β} (failed : ∀ cause e, pre e → stuck cause e) :
    Ends pre (ofFault result : Action α β) (fun value e => pre e ∧ result = .ok value) stuck := by
  intro e holds
  cases result with
  | ok value => exact ⟨holds, rfl⟩
  | error cause => exact failed _ e holds

theorem ofFactor_ends {result : Except FactorError β} (failed : ∀ cause e, pre e → stuck cause e) :
    Ends pre (ofFactor result : Action α β) (fun value e => pre e ∧ result = .ok value) stuck := by
  intro e holds
  cases result with
  | ok value => exact ⟨holds, rfl⟩
  | error cause => exact failed _ e holds

theorem onStore_ends {s : Store α} {action : Store.Action Fault α β}
    (failed : ∀ cause e, pre e → stuck cause e) :
    Ends pre (onStore s action) (fun result e => pre e ∧ action s = .ok result.1 result.2) stuck := by
  intro e holds
  unfold onStore
  cases action s with
  | ok value last => exact ⟨holds, rfl⟩
  | error cause last => exact failed _ e holds

end Steps

/-- What no decision changes. -/
structure SameQuery {α : Type} (first second : DepthFirst α) : Prop where
  config : second.config = first.config
  loaded : second.loaded.map ({ · with factorization := none }) =
    first.loaded.map ({ · with factorization := none })

section Unchanged

variable {α : Type} (start : DepthFirst α)

theorem onStore_keeps {β : Type} (s : Store α) (action : Store.Action Fault α β) :
    Preserves start.SameQuery (onStore s action) :=
  (onStore_ends fun _ _ kept => kept).mono fun _ _ kept => kept.1

theorem takeFactorization_keeps (state : TreeState α) :
    Preserves start.SameQuery (takeFactorization state) := by
  refine .modifyGet fun e same => ?_
  dsimp only
  split
  next loaded source shape _ =>
    split
    · exact same
    · split
      · exact ⟨same.config, by rw [← same.loaded, shape]; rfl⟩
      · exact same
  · exact same

theorem keep_keeps {e : DepthFirst α} (same : start.SameQuery e) (p : Problem α) (s : Session α)
    (elapsed : Duration) : start.SameQuery (e.keep p s elapsed) := by
  refine ⟨same.config, ?_⟩
  rw [← same.loaded, keep, Option.map_map]
  rfl

variable [Scalar α]

theorem warmStart_keeps (s : Store α) (state : Option (TreeState α)) :
    Preserves start.SameQuery (warmStart s state) := by
  unfold warmStart
  cases state with
  | none => exact .pure fun _ kept => kept
  | some state =>
    apply (onStore_keeps start s _).bind
    rintro ⟨result, s⟩
    cases result with
    | error cause => exact .throw fun _ kept => kept
    | ok outcome =>
      dsimp only
      split
      · exact .pure fun _ kept => kept
      · exact (takeFactorization_keeps start state).bind fun _ => .pure fun _ kept => kept

theorem propagateRoot_keeps (effort : Effort α) (split : CaseSplit α) (s : Store α) (q : Query α)
    (derived : List (Equation α)) :
    Preserves start.SameQuery (propagateRoot effort split s q derived) := by
  apply (onStore_keeps start s _).bind
  rintro ⟨outcome, s⟩
  dsimp only
  split
  · exact .pure fun _ kept => kept
  · cases effort.propagateQuery q derived s with
    | ok news last =>
      refine Ends.through (fun _ => start.SameQuery) ?_ fun _ => .pure fun _ kept => kept
      exact .modifyGet fun _ kept => ⟨kept.config, kept.loaded⟩
    | error cause last =>
      cases cause with
      | conflict => exact .pure fun _ kept => kept
      | factorization | fault => exact .throw fun _ kept => kept

theorem prepare_keeps (split : CaseSplit α) (limit : Duration) (state : Option (TreeState α)) :
    Preserves start.SameQuery (prepare split limit state) := by
  unfold prepare
  apply Ends.get_bind
  intro e same
  apply Ends.through fun _ => start.SameQuery
  · refine (ofFault_ends fun _ _ kept => ?_).mono fun _ _ kept => ?_
    · exact kept ▸ same
    · exact kept.1 ▸ same
  intro effort
  apply Ends.get_bind
  intro e same
  split
  next loaded _ =>
    apply Ends.through fun _ => start.SameQuery
    · refine (ofFault_ends fun _ _ kept => ?_).mono fun _ _ kept => ?_
      · exact kept ▸ same
      · exact kept.1 ▸ same
    intro empty
    apply (onStore_keeps start empty _).bind
    rintro ⟨_, bounded⟩
    apply (warmStart_keeps start bounded state).bind
    intro warm
    cases warm with
    | none => exact .pure fun _ kept => kept
    | some warm =>
      apply (propagateRoot_keeps start effort split warm loaded.query loaded.derived).bind
      intro root
      cases root with
      | none => exact .pure fun _ kept => kept
      | some root =>
        refine Ends.through (fun _ => start.SameQuery) ?_ fun _ => .pure fun _ kept => kept
        exact .modifyGet fun _ kept => ⟨kept.config, kept.loaded⟩
  next => exact .throw fun _ kept => kept ▸ same

theorem start_keeps (split : CaseSplit α) (limit : Duration) (state : Option (TreeState α)) :
    Preserves start.SameQuery (DepthFirst.start split limit state) := by
  intro e same
  have kept := prepare_keeps start split limit state
    { e with solution := none, rootState := none, statistics := .zero, session := none }
    ⟨same.config, same.loaded⟩
  unfold DepthFirst.start
  dsimp only
  cases run : prepare split limit state
    { e with solution := none, rootState := none, statistics := .zero, session := none } with
  | ok outcome last =>
    rw [run] at kept
    cases outcome <;> exact ⟨kept.config, kept.loaded⟩
  | error cause last =>
    rw [run] at kept
    cases cause <;> exact ⟨kept.config, kept.loaded⟩

theorem advance_keeps (signals : Signals) : Preserves start.SameQuery (advance signals) := by
  intro e same
  unfold advance
  cases e.session with
  | none => exact same
  | some held =>
    obtain ⟨p, s⟩ := held
    dsimp only
    cases p.advance signals s with
    | ok ending last =>
      have kept := keep_keeps start same p last signals.elapsed
      cases ending <;> exact ⟨kept.config, kept.loaded⟩
    | error cause last =>
      have kept := keep_keeps start same p last signals.elapsed
      cases cause <;> exact ⟨kept.config, kept.loaded⟩

end Unchanged

variable {q : Query Extended} {x : Variable → ℚ}

/-- The engine has loaded a query, with rows that its equations imply. -/
structure Serves (q : Query Extended) (e : DepthFirst Extended) : Prop where
  precise : e.config.epsilon = 0
  loaded : ∃ l, e.loaded = some l ∧ l.query = q ∧
    ∀ x, q.Solution x → Effort.Satisfied q.size x l.derived

theorem SameQuery.loaded_eq {α : Type} {first second : DepthFirst α} (same : first.SameQuery second)
    {l : Loaded α} (shape : first.loaded = some l) :
    ∃ f, second.loaded = some { l with factorization := f } := by
  have loaded := same.loaded
  rw [shape] at loaded
  cases other : second.loaded with
  | none =>
    rw [other] at loaded
    cases loaded
  | some l' =>
    rw [other] at loaded
    obtain ⟨_, _, _, f, _⟩ := l'
    simp only [Option.map_some, Option.some.injEq, Loaded.mk.injEq] at loaded
    obtain ⟨rfl, rfl, rfl, -, rfl⟩ := loaded
    exact ⟨f, rfl⟩

theorem SameQuery.serves {first second : DepthFirst Extended} (same : first.SameQuery second)
    (serves : first.Serves q) : second.Serves q := by
  obtain ⟨l, shape, query, derived⟩ := serves.loaded
  obtain ⟨f, kept⟩ := same.loaded_eq shape
  exact ⟨by rw [same.config, serves.precise], _, kept, query, derived⟩

theorem load_loads (formed : ∀ e ∈ q.equations, e.WellFormed) (map : VariableMap Extended) :
    Ends (fun e => e.config.epsilon = 0 ∧ 0 < e.config.factor.pivotTolerance) (load q map)
      (fun loaded e => if loaded then e.Serves q else ∀ x, ¬ q.Solution x) fun _ _ => True := by
  apply Ends.get_bind
  rintro e ⟨precise, positive⟩
  apply (ofFault_ends fun _ _ _ => trivial).bind
  intro t
  apply Ends.from_state
  rintro _ ⟨rfl, made⟩
  have exact : t.epsilon = 0 := (congrArg (·.epsilon) (Tolerance.ofEpsilon_valid made).1).trans precise
  cases computed : CrashBasis.compute q t with
  | error cause =>
    refine Ends.through (fun _ _ => True) (.modifyGet fun _ _ => trivial) fun _ => .pure fun _ _ => ?_
    intro x solution
    obtain ⟨b, same⟩ := CrashBasis.compute_consistent exact formed solution.equations
    cases computed.symm.trans same
  | ok b =>
    apply (ofFactor_ends fun _ _ _ => trivial).bind
    rintro ⟨f, derived⟩
    refine Ends.through (fun _ e => e.Serves q) (.modifyGet ?_) fun _ => .pure fun _ serves => serves
    rintro _ ⟨rfl, factorized⟩
    exact ⟨precise, _, rfl, rfl, fun x solution =>
      factorize_satisfied positive exact formed computed factorized solution.equations⟩

theorem enterBounds_encloses {size : Nat} {first : Nat} {bounds : List (Interval Extended)}
    (fits : first + bounds.length ≤ size)
    (inside : ∀ i (known : i < bounds.length), bounds[i].Contains (x (first + i))) :
    Returns (Store.Encloses size x) (enterBounds first bounds) fun _ last => last.Encloses size x := by
  induction bounds generalizing first with
  | nil => exact .pure fun _ encloses => encloses
  | cons interval rest ih =>
    simp only [List.length_cons] at fits
    have here : interval.Contains (x first) := inside 0 (by simp)
    apply (Store.tightenBounds_encloses (by omega) here).bind
    intro _
    refine Ends.weaken (@ih (first + 1) (by omega) ?_) (fun _ kept => kept.2) (fun _ _ kept => kept)
      fun _ _ failed => failed
    intro i known
    have := inside (i + 1) (by simpa using known)
    rwa [List.getElem_cons_succ, show first + (i + 1) = first + 1 + i by omega] at this

theorem enterBounds_tightened {α : Type} [Scalar α] (start : Store α) (first : Nat)
    (bounds : List (Interval α)) : Preserves start.Tightened (enterBounds first bounds) := by
  induction bounds generalizing first with
  | nil => exact .pure fun _ kept => kept
  | cons interval rest ih =>
    exact (Store.tightenAll_tightened start _).bind fun _ => ih (first + 1)

/-- What a decision has come to, as seen from an assignment in its region. -/
structure Begun (x : Variable → ℚ) (outcome : Option ExitCode) (e : DepthFirst Extended) : Prop where
  not_unsat : outcome ≠ some .unsat
  root : ∀ state, e.rootState = some state → state.Admits x
  underway : outcome = none → ∃ p s, e.session = some (p, s) ∧ p.SolvedBy x ∧ p.Alive x s

/-- A decision that is about to begin. -/
structure Fresh (q : Query Extended) (e : DepthFirst Extended) : Prop where
  serves : e.Serves q
  root : e.rootState = none

theorem Fresh.takeFactorization (state : TreeState Extended) :
    Preserves (Fresh q) (takeFactorization state) := by
  intro e fresh
  refine ⟨(takeFactorization_keeps e state e ⟨rfl, rfl⟩).serves fresh.serves, ?_⟩
  dsimp only
  repeat' split
  all_goals exact fresh.root

theorem warmStart_encloses {s : Store Extended} (encloses : s.Encloses q.size x)
    {state : Option (TreeState Extended)} (admitted : ∀ earlier ∈ state, earlier.Admits x) :
    Ends (Fresh q) (warmStart s state)
      (fun warm e => e.Fresh q ∧ ∃ t, warm = some t ∧ t.Encloses q.size x ∧ t.saved = s.saved)
      fun _ => Fresh q := by
  unfold warmStart
  cases state with
  | none => exact .pure fun _ fresh => ⟨fresh, s, rfl, encloses, rfl⟩
  | some earlier =>
    apply (onStore_ends fun _ _ kept => kept).bind
    rintro ⟨result, t⟩
    cases result with
    | error cause => exact .throw fun _ kept => kept.1
    | ok outcome =>
      dsimp only
      apply Ends.from_state
      rintro e ⟨fresh, applied⟩
      obtain ⟨feasible, inside⟩ := (admitted earlier rfl).applySnapshot encloses applied
      have saved := ((Store.applySnapshot_tightened s earlier.bounds).ok .refl applied).saved_eq
      rw [if_neg (by simpa [Outcome.isInfeasible] using feasible)]
      exact ((Fresh.takeFactorization earlier).here fresh).bind fun _ =>
        .pure fun _ kept => ⟨kept, t, rfl, inside, saved⟩

theorem propagateRoot_encloses {effort : Effort Extended} (precise : effort.tolerance.epsilon = 0)
    {split : CaseSplit Extended} (inside : split.Holds x) {s : Store Extended}
    (encloses : s.Encloses q.size x) (solution : q.Solution x) {derived : List (Equation Extended)}
    (sound : Effort.Satisfied q.size x derived) (formed : ∀ e ∈ q.equations, e.WellFormed) :
    Ends (Fresh q) (propagateRoot effort split s q derived)
      (fun root e => e.Fresh q ∧ ∃ t, root = some t ∧ t.Encloses q.size x ∧ t.saved = s.saved)
      fun _ => Fresh q := by
  apply (onStore_ends fun _ _ kept => kept).bind
  rintro ⟨outcome, t⟩
  dsimp only
  apply Ends.from_state
  rintro e ⟨fresh, tightened⟩
  obtain ⟨feasible, enclosed⟩ := (Store.tightenAll_encloses inside).ok encloses tightened
  have first := ((Store.tightenAll_tightened s split.tightenings).ok .refl tightened).saved_eq
  rw [if_neg (by simpa [Outcome.isInfeasible] using feasible)]
  obtain ⟨news, last, propagated, kept⟩ := (Effort.propagate_encloses precise
    ⟨formed, q.equations_known, solution.equations⟩ sound solution.relus q.relus_known).run enclosed
  have second := ((effort.propagate_tightened t q.equations derived q.relus).ok .refl
    propagated).saved_eq
  rw [Effort.propagateQuery, propagated]
  refine Ends.through (fun _ => Fresh q) (.modifyGet ?_) fun _ => .pure fun _ same => ?_
  · rintro _ rfl
    exact ⟨⟨fresh.serves.precise, fresh.serves.loaded⟩, fresh.root⟩
  · exact ⟨same, last, rfl, kept, second.trans first⟩

theorem prepare_begins (formed : ∀ e ∈ q.equations, e.WellFormed) (solution : q.Solution x)
    {split : CaseSplit Extended} (inside : split.Holds x) (limit : Duration)
    {state : Option (TreeState Extended)} (admitted : ∀ earlier ∈ state, earlier.Admits x) :
    Ends (Fresh q) (prepare split limit state) (Begun x) fun _ => Fresh q := by
  apply Ends.get_bind
  intro e fresh
  apply (ofFault_ends fun _ _ same => same ▸ fresh).bind
  intro effort
  apply Ends.get_bind
  rintro _ ⟨rfl, made⟩
  have precise := (congrArg (·.epsilon) (SearchConfig.effort_valid made).1).trans fresh.serves.precise
  obtain ⟨l, shape, rfl, sound⟩ := fresh.serves.loaded
  rw [shape]
  apply (ofFault_ends fun _ _ same => same ▸ fresh).bind
  intro empty
  apply (onStore_ends fun _ _ kept => kept.1 ▸ fresh).bind
  rintro ⟨_, bounded⟩
  apply Ends.from_state
  rintro _ ⟨⟨rfl, initialized⟩, entered⟩
  have start : empty.Encloses l.query.size x :=
    Store.initialize_encloses (by simp [precise]) initialized
  have flat : empty.saved = [] := Store.initialize_saved initialized
  have bounds := (enterBounds_encloses (by simp) fun v known => by
    simpa using solution.bounds v (by simpa using known)).ok start entered
  have saved := ((enterBounds_tightened empty 0 l.query.bounds.toList).ok .refl entered).saved_eq
  apply ((warmStart_encloses bounds admitted).here fresh).bind
  intro warm
  apply Ends.from_state
  rintro between ⟨fresh, t, rfl, warmed, warmSaved⟩
  apply ((propagateRoot_encloses precise inside warmed solution (sound x solution) formed).here
    fresh).bind
  intro root
  apply Ends.from_state
  rintro last ⟨fresh, s, rfl, enclosed, rootSaved⟩
  refine Ends.through (fun _ => Begun x none) (.modifyGet ?_) fun _ => .pure fun _ begun => begun
  rintro _ rfl
  refine ⟨nofun, fun state same => ?_, fun _ => ⟨_, _, rfl, ?_, ?_, .inl enclosed.admits⟩⟩
  · obtain rfl := Option.some.inj same
    exact enclosed.snapshot_admits _
  · exact ⟨precise, ⟨formed, l.query.equations_known, solution.equations⟩, sound x solution,
      solution.relus⟩
  · refine ⟨enclosed.size_eq, enclosed.tolerance, fun cells member => ?_⟩
    rw [rootSaved, warmSaved, saved, flat] at member
    cases member

/-- A decision that begins does not exclude a solution in its region. -/
theorem start_begins (formed : ∀ e ∈ q.equations, e.WellFormed) (solution : q.Solution x)
    {split : CaseSplit Extended} (inside : split.Holds x) (limit : Duration)
    {state : Option (TreeState Extended)} (admitted : ∀ earlier ∈ state, earlier.Admits x) :
    Ends (Serves q) (DepthFirst.start split limit state) (Begun x) fun _ _ => True := by
  intro e serves
  have begun := prepare_begins formed solution inside limit admitted
    { e with solution := none, rootState := none, statistics := .zero, session := none }
    ⟨⟨serves.precise, serves.loaded⟩, rfl⟩
  unfold DepthFirst.start
  dsimp only
  cases run : prepare split limit state
    { e with solution := none, rootState := none, statistics := .zero, session := none } with
  | ok outcome last =>
    rw [run] at begun
    cases outcome with
    | none => exact begun
    | some code => exact ⟨begun.not_unsat, begun.root, nofun⟩
  | error cause last =>
    rw [run] at begun
    cases cause with
    | failure =>
      refine ⟨nofun, fun earlier same => ?_, nofun⟩
      cases begun.root.symm.trans same
    | fault => trivial

/-- No step of a decision excludes a solution in its region. -/
theorem advance_begun (signals : Signals) :
    Ends (Begun x none) (advance signals) (Begun x) fun _ _ => True := by
  intro e begun
  obtain ⟨p, s, shape, solved, alive⟩ := begun.underway rfl
  have reached := p.advance_covers solved signals s alive
  unfold advance
  rw [shape]
  dsimp only
  cases run : p.advance signals s with
  | ok ending last =>
    rw [run] at reached
    cases ending with
    | none => exact ⟨nofun, begun.root, fun _ => ⟨p, last, rfl, solved, reached⟩⟩
    | some ending =>
      refine ⟨?_, begun.root, nofun⟩
      cases ending with
      | exhausted => exact reached.elim
      | satisfied | undecided | quit => exact nofun
  | error cause last =>
    cases cause with
    | failure => exact ⟨nofun, begun.root, nofun⟩
    | fault => trivial

theorem solve_keeps {α : Type} [Scalar α] (start : DepthFirst α) (world : Nat → Signals)
    (split : CaseSplit α) (limit : Duration) (state : Option (TreeState α)) :
    Preserves start.SameQuery (solve world split limit state) := by
  intro e
  exact SearchEngine.solveWithin_ends (start_keeps start split limit state) (advance_keeps start)
    (fun _ kept => kept) e.nodeBound world e

/-- A region with a solution is not decided to have none, and the tree state that is left admits the
solution. -/
theorem solve_admits (formed : ∀ e ∈ q.equations, e.WellFormed) (solution : q.Solution x)
    {split : CaseSplit Extended} (inside : split.Holds x) (world : Nat → Signals) (limit : Duration)
    {state : Option (TreeState Extended)} (admitted : ∀ earlier ∈ state, earlier.Admits x) :
    Ends (Serves q) (solve world split limit state)
      (fun code e => code ≠ .unsat ∧ ∀ left, e.rootState = some left → left.Admits x)
      fun _ _ => True := by
  intro e serves
  refine ((SearchEngine.solveWithin_ends (start_begins formed solution inside limit admitted)
    advance_begun (fun _ _ => trivial) e.nodeBound world).mono fun code last begun => ?_) e serves
  exact ⟨fun same => begun.not_unsat (same ▸ rfl), begun.root⟩

/-- The engines that have loaded a query as it is, and may have decided regions of it since then. -/
inductive Processed (q : Query Extended) : DepthFirst Extended → Prop where
  | load {e last : DepthFirst Extended} (precise : e.config.epsilon = 0)
      (positive : 0 < e.config.factor.pivotTolerance) (run : process q false e = .ok true last) :
      Processed q last
  | diversify {e : DepthFirst Extended} (before : Processed q e) (seed : UInt64)
      (heuristic : BranchingHeuristic) : Processed q (e.diversify seed heuristic)
  | solve {e last : DepthFirst Extended} (before : Processed q e) {world : Nat → Signals}
      {split : CaseSplit Extended} {limit : Duration} {state : Option (TreeState Extended)}
      {code : ExitCode} (run : e.solve world split limit state = .ok code last) : Processed q last

/-- Where a decision about a region may start: at nothing, or at the tree state that was left by a
decision about a region around it, which itself started in such a way. -/
inductive StartsFrom (q : Query Extended) :
    CaseSplit Extended → Option (TreeState Extended) → Prop where
  | cold (split : CaseSplit Extended) : StartsFrom q split none
  | warm {outer split : CaseSplit Extended} {state : Option (TreeState Extended)}
      (before : StartsFrom q outer state) (contained : outer.tightenings ⊆ split.tightenings)
      {e last : DepthFirst Extended} (engine : Processed q e) {world : Nat → Signals}
      {limit : Duration} {code : ExitCode} (run : e.solve world outer limit state = .ok code last)
      {left : TreeState Extended} (root : last.rootState = some left) :
      StartsFrom q split (some left)

theorem Processed.serves (formed : ∀ e ∈ q.equations, e.WellFormed) {e : DepthFirst Extended}
    (engine : Processed q e) : e.Serves q := by
  induction engine with
  | @load e _ precise positive run =>
    have loads := (load_loads formed (VariableMap.identity q.size)).ok
      (show e.reset.config.epsilon = 0 ∧ 0 < e.reset.config.factor.pivotTolerance from
        ⟨precise, positive⟩) run
    simpa using loads
  | diversify _ _ _ ih => exact ⟨ih.precise, ih.loaded⟩
  | @solve e _ _ _ _ _ _ _ run ih => exact ((solve_keeps e _ _ _ _).ok ⟨rfl, rfl⟩ run).serves ih

theorem StartsFrom.admits (formed : ∀ e ∈ q.equations, e.WellFormed) (solution : q.Solution x)
    {split : CaseSplit Extended} {state : Option (TreeState Extended)}
    (starts : StartsFrom q split state) (inside : split.Holds x) :
    ∀ earlier ∈ state, earlier.Admits x := by
  induction starts with
  | cold => exact nofun
  | warm before contained engine run root ih =>
    intro earlier same
    obtain rfl := Option.some.inj same
    have outer := fun t member => inside t (contained member)
    exact ((solve_admits formed solution outer _ _ (ih outer)).ok (engine.serves formed) run).2 _ root

/-- A query that the engine refuses has no solution, and a region that it decides to be unsatisfiable
contains none. -/
theorem unsat_sound (formed : ∀ e ∈ q.equations, e.WellFormed) :
    (∀ e last : DepthFirst Extended, e.config.epsilon = 0 → 0 < e.config.factor.pivotTolerance →
      process q false e = .ok false last → ∀ x, ¬ q.Solution x) ∧
    ∀ (e last : DepthFirst Extended) (world : Nat → Signals) (split : CaseSplit Extended)
      (limit : Duration) (state : Option (TreeState Extended)), Processed q e →
      StartsFrom q split state → e.solve world split limit state = .ok .unsat last →
      ∀ x, q.Solution x → ¬ split.Holds x := by
  constructor
  · intro e last precise positive run
    have loads := (load_loads formed (VariableMap.identity q.size)).ok
      (show e.reset.config.epsilon = 0 ∧ 0 < e.reset.config.factor.pivotTolerance from
        ⟨precise, positive⟩) run
    simpa using loads
  · intro e last world split limit state engine starts run x solution inside
    have admits := solve_admits formed solution inside world limit (starts.admits formed solution inside)
    exact (admits.ok (engine.serves formed) run).1 rfl

section Runs

variable {ε σ β : Type}

def answer? : EStateM.Result ε σ β → Option β
  | .ok value _ => some value
  | .error _ _ => none

def stateAfter : EStateM.Result ε σ β → σ
  | .ok _ last | .error _ last => last

def refusal? : EStateM.Result ε σ β → Option ε
  | .ok _ _ => none
  | .error cause _ => some cause

theorem eq_ok_of_answer {result : EStateM.Result ε σ β} {value : β}
    (answered : answer? result = some value) : result = .ok value (stateAfter result) := by
  cases result with
  | ok other last => rw [← Option.some.inj answered]; rfl
  | error => cases answered

theorem eq_error_of_refusal {result : EStateM.Result ε σ β} {cause : ε}
    (refused : refusal? result = some cause) : result = .error cause (stateAfter result) := by
  cases result with
  | ok => cases refused
  | error other last => rw [← Option.some.inj refused]; rfl

end Runs

/-- A contradictory query is refused, and a region outside the bounds is decided from the tree state
that an interrupted decision about all of the bounds left. -/
theorem unsat_sound_refused_and_warm :
    let settings : SearchConfig Extended := ⟨0, .denseLu, ⟨1, 1⟩, 1, 0, 0, 0, 0⟩
    let contradictory : Query Extended := { Query.unconstrained 0 with
      equations := [.constant 1]
      equations_known := by simp [Equation.constant] }
    let bounded : Query Extended := { Query.unconstrained 1 with bounds := #v[⟨1, 2⟩] }
    let outside : CaseSplit Extended := ⟨[.upper 0 0]⟩
    let quitting : Nat → Signals := fun _ => ⟨true, .zero⟩
    let refused := stateAfter (process contradictory false (new settings))
    let loaded := stateAfter (process bounded false (new settings))
    let stopped := stateAfter (loaded.solve quitting .empty .zero none)
    (process contradictory false (new settings) = .ok false refused ∧
      ∀ x, ¬ contradictory.Solution x) ∧
    process bounded false (new settings) = .ok true loaded ∧
      loaded.solve quitting .empty .zero none = .ok .quitRequested stopped ∧
      ∃ root, stopped.rootState = some root ∧
        answer? (stopped.solve quitting outside .zero (some root)) = some .unsat ∧
        ∀ x, bounded.Solution x → ¬ outside.Holds x := by
  intro settings contradictory bounded outside quitting refused loaded stopped
  have positive : 0 < settings.factor.pivotTolerance := by decide +kernel
  have refuse : process contradictory false (new settings) = .ok false refused :=
    eq_ok_of_answer (by decide +kernel)
  have load : process bounded false (new settings) = .ok true loaded :=
    eq_ok_of_answer (by decide +kernel)
  have stop : loaded.solve quitting .empty .zero none = .ok .quitRequested stopped :=
    eq_ok_of_answer (by decide +kernel)
  have root : stopped.rootState = some (stopped.rootState.get (by decide +kernel)) := by simp
  have exclude : answer? (stopped.solve quitting outside .zero stopped.rootState) = some .unsat := by
    decide +kernel
  have formed : ∀ e ∈ contradictory.equations, e.WellFormed := by
    intro e member
    obtain rfl : e = .constant 1 := by simpa [contradictory] using member
    exact one_eq ▸ Equation.constant_wellFormed 1
  have engine : Processed bounded loaded := .load rfl positive load
  have warm : StartsFrom bounded outside stopped.rootState :=
    root ▸ .warm (.cold .empty) (by simp [CaseSplit.empty]) engine stop root
  refine ⟨⟨refuse, (unsat_sound formed).1 _ _ rfl positive refuse⟩, load, stop, _, root,
    root ▸ exclude, ?_⟩
  exact (unsat_sound (q := bounded) (by simp [bounded, Query.unconstrained])).2 _ _ quitting outside
    .zero stopped.rootState (.solve engine stop) warm (eq_ok_of_answer exclude)

end DepthFirst

end ReluSolver
