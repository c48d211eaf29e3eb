import ReluSolver.Proofs.EngineFootprint
import ReluSolver.Proofs.FaultlessPresolve
import ReluSolver.Proofs.FaultlessSearch

/-! The engine breaks no call. Whatever queries it is given, whatever it has decided
before and whatever tree state it starts from, it loads a query or refuses it, and a
decision about a region of the query that is searched takes one step after another. -/

namespace ReluSolver

open Extended

section DerivedRows

variable {α : Type} [Scalar α] {size : Nat}

theorem Equation.add_known {e : Equation α} (known : ∀ a ∈ e.addends, a.var < size) (c : α)
    {v : Variable} (here : v < size) : ∀ a ∈ (e.add c v).addends, a.var < size := by
  intro a member
  rcases Equation.addTo_mentions member with same | ⟨b, old, same⟩
  · exact same ▸ here
  · exact same ▸ known b old

namespace CrashBasis

variable {b : CrashBasis α} {t : Tolerance α}

theorem combination_known (others : ∀ v ∈ b.nonBasic, v < size) {v : Variable} (basic : v < size)
    (inverseRow : List α) : ∀ a ∈ (b.combination t v inverseRow).addends, a.var < size := by
  have each : ∀ (vars : List Variable) (e : Equation α), (∀ w ∈ vars, w < size) →
      (∀ a ∈ e.addends, a.var < size) → ∀ a ∈ (vars.foldl (fun e w =>
        if t.isZero (Scalar.dot (b.column w) inverseRow) then e
        else e.add (Scalar.dot (b.column w) inverseRow) w) e).addends, a.var < size := by
    intro vars
    induction vars with
    | nil => exact fun _ _ known => known
    | cons w rest ih =>
      intro e inside known
      refine ih _ (fun u member => inside u (by simp [member])) ?_
      dsimp only
      split
      · exact known
      · exact Equation.add_known known _ (inside w (by simp))
  refine each b.nonBasic _ others (Equation.add_known ?_ 1 basic)
  simp [Equation.constant]

theorem explicitRows_known (others : ∀ v ∈ b.nonBasic, v < size) (basics : ∀ v ∈ b.basic, v < size)
    {f : Factorization α} {rows : List (Equation α)} (run : b.explicitRows t f = .ok rows) :
    ∀ row ∈ rows, ∀ a ∈ row.addends, a.var < size := by
  obtain ⟨inverse, -, run⟩ := bind_eq_ok.mp run
  rw [← Except.ok.inj run]
  intro row member
  obtain ⟨i, inside, rfl⟩ := List.mem_iff_getElem.mp member
  rw [List.getElem_zipWith]
  exact combination_known others (basics _ (List.getElem_mem _)) _

theorem implicitRows_known (others : ∀ v ∈ b.nonBasic, v < size) (basics : ∀ v ∈ b.basic, v < size)
    {f : Factorization α} {rows : List (Equation α)} (run : b.implicitRows t f = .ok rows) :
    ∀ row ∈ rows, ∀ a ∈ row.addends, a.var < size := by
  intro row member
  obtain ⟨⟨v, i⟩, placed, made⟩ := forall₂_mem_right (mapM_forall₂ run) member
  obtain ⟨inverseRow, -, same⟩ := bind_eq_ok.mp made
  rw [← Except.ok.inj same]
  exact combination_known others (basics v (List.fst_mem_of_mem_zipIdx placed)) _

end CrashBasis

end DerivedRows

theorem DepthFirst.factorize_known {q : Query Extended} {b : CrashBasis Extended} (within : b.Within q)
    {c : SearchConfig Extended} {t : Tolerance Extended} {f : Option (Factorization Extended)}
    {derived : List (Equation Extended)} (run : factorize c t b = .ok (f, derived)) :
    q.Knows b derived := by
  have others : ∀ v ∈ b.nonBasic, v < q.size := by
    rw [within.nonBasic]
    exact fun v member => List.mem_range.mp (List.mem_filter.mp member).1
  have basics : ∀ v ∈ b.basic, v < q.size := by
    intro v member
    obtain ⟨row, listed, rfl⟩ := List.mem_map.mp member
    exact within.basic row listed
  refine ⟨within, ?_⟩
  unfold factorize at run
  split at run
  · cases run
    exact List.forall_mem_nil _
  · split at run
    · cases run
      exact List.forall_mem_nil _
    · cases run
    · dsimp only at run
      split at run
      all_goals obtain ⟨rows, computed, same⟩ := bind_eq_ok.mp run; cases same
      · exact CrashBasis.explicitRows_known others basics computed
      · exact CrashBasis.implicitRows_known others basics computed

section Settings

variable {c : SearchConfig Extended} {epsilon : ℚ}

theorem SearchConfig.tolerance_total (same : c.epsilon = finite epsilon) (positive : 0 ≤ epsilon) :
    ∃ t, c.tolerance = .ok t := by
  refine ⟨⟨c.epsilon⟩, ?_⟩
  simp [tolerance, Tolerance.ofEpsilon, same, zero_eq, positive]

theorem SearchConfig.effort_total (same : c.epsilon = finite epsilon) (positive : 0 ≤ epsilon) :
    ∃ effort, c.effort = .ok effort := by
  obtain ⟨t, made⟩ := tolerance_total same positive
  exact ⟨_, bind_eq_ok.mpr ⟨t, made, rfl⟩⟩

end Settings

namespace DepthFirst

theorem enterBounds_total {α : Type} [Scalar α] {size first : Nat} {bounds : List (Interval α)}
    (fits : first + bounds.length ≤ size) :
    Returns (fun s : Store α => s.size = size) (enterBounds first bounds)
      fun _ last => last.size = size := by
  induction bounds generalizing first with
  | nil => exact .pure fun _ kept => kept
  | cons interval rest ih =>
    simp only [List.length_cons] at fits
    have here : first < size := by omega
    exact (Store.tightenBounds_total here interval).bind fun _ => ih (by omega)

section Steps

variable {α β γ : Type} {pre : DepthFirst α → Prop} {last : γ → DepthFirst α → Prop}
  {stuck : Abort → DepthFirst α → Prop}

theorem ofFault_ok {result : Except Fault β} {value : β} (run : result = .ok value)
    {next : β → Action α γ} (rest : Ends pre (next value) last stuck) :
    Ends pre (ofFault result >>= next) last stuck := by
  subst run
  exact rest

theorem onStore_returns {s : Store α} {action : Store.Action Fault α β} {before : Store α → Prop}
    {after : β → Store α → Prop} (returns : Returns before action after) (holds : before s) :
    Ends pre (onStore s action) (fun result e => pre e ∧ after result.1 result.2) stuck := by
  obtain ⟨value, last, run, kept⟩ := returns.run holds
  intro e given
  unfold onStore
  rw [run]
  exact ⟨given, kept⟩

end Steps

/-- What the engine works with is about variables that its queries have, and a search in progress
has one open checkpoint for each frame. -/
structure Steady (c : SearchConfig Extended) (e : DepthFirst Extended) : Prop where
  config : e.config = c
  loaded : ∀ l ∈ e.loaded, l.query.Knows l.basis l.derived
  session : ∀ held ∈ e.session,
    held.1.query.Knows held.1.basis held.1.derived ∧ held.2.Balanced held.1.query

/-- From a steady engine a step leads to a steady engine, also where it refuses to go on. It breaks
no call. -/
abbrev Steadily {β : Type} (c : SearchConfig Extended) (step : Action Extended β)
    (promise : β → Prop) : Prop :=
  Ends (Steady c) step (fun value e => e.Steady c ∧ promise value)
    fun cause e => cause.IsFailure ∧ e.Steady c

section Steady

variable {c : SearchConfig Extended} {q : Query Extended} {e : DepthFirst Extended}

theorem Steady.new (c : SearchConfig Extended) : (DepthFirst.new c).Steady c :=
  ⟨rfl, by simp [DepthFirst.new], by simp [DepthFirst.new]⟩

theorem Steady.diversify (steady : e.Steady c) (seed : UInt64) (heuristic : BranchingHeuristic) :
    (e.diversify seed heuristic).Steady c :=
  ⟨steady.config, steady.loaded, steady.session⟩

theorem Steady.finish (steady : e.Steady c) (code : ExitCode) : (e.finish code).Steady c :=
  ⟨steady.config, steady.loaded, by simp [DepthFirst.finish]⟩

theorem Steady.keep_loaded (steady : e.Steady c) (p : Problem Extended) (s : Session Extended)
    (elapsed : Duration) : ∀ l ∈ (e.keep p s elapsed).loaded, l.query.Knows l.basis l.derived := by
  intro l same
  obtain ⟨earlier, shape, rfl⟩ := Option.map_eq_some_iff.mp same
  exact steady.loaded earlier shape

theorem ofFactor_steadily {β : Type} (result : Except FactorError β) :
    Steadily c (ofFactor result) fun value => result = .ok value := by
  cases result with
  | ok value => exact .pure fun _ steady => ⟨steady, rfl⟩
  | error cause => exact .throw fun _ steady => ⟨⟨_, rfl⟩, steady⟩

theorem refuse_steadily : Steadily c (do
    modify ({ · with exitCode := .unsat })
    return false : Action Extended Bool) fun _ => True := by
  apply Ends.through fun _ e => e.Steady c
  · exact .modifyGet fun _ steady => ⟨steady.config, steady.loaded, steady.session⟩
  · exact fun _ => .pure fun _ steady => ⟨steady, trivial⟩

section Process

variable {epsilon : ℚ} (same : c.epsilon = finite epsilon) (positive : 0 ≤ epsilon)
include same positive

theorem load_steadily (formed : ∀ e ∈ q.equations, e.WellFormed) (map : VariableMap Extended) :
    Steadily c (load q map) fun _ => True := by
  obtain ⟨t, made⟩ := SearchConfig.tolerance_total same positive
  apply Ends.get_bind
  intro e steady
  rw [steady.config]
  apply ofFault_ok made
  split
  next => exact refuse_steadily.here steady
  next basis computed =>
    apply ((ofFactor_steadily _).here steady).bind
    rintro ⟨f, derived⟩
    apply Ends.through fun _ e => e.Steady c
    · refine .modifyGet ?_
      rintro e ⟨steady, factorized⟩
      refine ⟨steady.config, fun l same => ?_, steady.session⟩
      obtain rfl := Option.some.inj same
      exact factorize_known (CrashBasis.compute_within formed computed) factorized
    · exact fun _ => .pure fun _ steady => ⟨steady, trivial⟩

theorem process_steadily (regular : q.Regular) (simplified : Bool) :
    Steadily c (process q simplified) fun _ => True := by
  obtain ⟨effort, made⟩ := SearchConfig.effort_total same positive
  apply Ends.through fun _ e => e.Steady c
  · exact .modifyGet fun e steady => ⟨steady.config, by simp [reset, new], by simp [reset, new]⟩
  intro _
  split
  next => exact load_steadily same positive regular.equations _
  next =>
    apply Ends.get_bind
    intro e steady
    rw [steady.config]
    apply ofFault_ok made
    have distinct : ∀ e ∈ q.equations, e.vars.Nodup := fun e member =>
      (regular.equations e member).distinct
    split
    next simpler map run =>
      exact (load_steadily same positive (Presolve.simplify_formed regular.equations run) map).here steady
    next => exact refuse_steadily.here steady
    next cause run => cases Presolve.simplify_conflict distinct regular.relus run
    next cause run => cases Presolve.simplify_conflict distinct regular.relus run

end Process

theorem takeFactorization_steadily (state : TreeState Extended) :
    Steadily c (takeFactorization state) fun _ => True := by
  refine .modifyGet fun e steady => ⟨?_, trivial⟩
  dsimp only
  split
  next l source shape _ =>
    split
    next => exact steady
    next =>
      split
      next =>
        refine ⟨steady.config, fun l' same => ?_, steady.session⟩
        obtain rfl := Option.some.inj same
        exact steady.loaded l shape
      next => exact steady
  next => exact steady

variable {s : Store Extended} (carries : s.Carries q [])
include carries

theorem warmStart_steadily (state : Option (TreeState Extended)) :
    Steadily c (warmStart s state) fun warm => ∀ t ∈ warm, t.Carries q [] := by
  unfold warmStart
  cases state with
  | none =>
    refine .pure fun _ steady => ⟨steady, fun t same => ?_⟩
    exact Option.some.inj same ▸ carries
  | some state =>
    have returns : Returns (Store.Carries q []) (Store.applySnapshot state.bounds)
        fun _ => Store.Carries q [] :=
      Store.Carries.step (Store.applySnapshot_total state.bounds)
        fun start => Store.applySnapshot_tightened start state.bounds
    apply (onStore_returns returns carries).bind
    rintro ⟨result, t⟩
    refine .from_state ?_
    rintro e ⟨steady, warmed⟩
    cases result with
    | error cause => exact .throw fun _ same => ⟨⟨_, rfl⟩, same ▸ steady⟩
    | ok outcome =>
      dsimp only
      split
      · exact .pure fun _ same => ⟨same ▸ steady, nofun⟩
      · refine ((takeFactorization_steadily state).here steady).bind fun _ => .pure fun _ kept => ?_
        exact ⟨kept.1, fun _ same => Option.some.inj same ▸ warmed⟩

theorem propagateRoot_steadily {derived : List (Equation Extended)}
    (implied : ∀ row ∈ derived, ∀ a ∈ row.addends, a.var < q.size) {split : CaseSplit Extended}
    (known : split.Known q.size) (effort : Effort Extended) :
    Steadily c (propagateRoot effort split s q derived) fun root => ∀ t ∈ root, t.Carries q [] := by
  have returns : Returns (Store.Carries q []) (Store.tightenAll split.tightenings)
      fun _ => Store.Carries q [] :=
    Store.Carries.step (Store.tightenAll_total known)
      fun start => Store.tightenAll_tightened start split.tightenings
  apply (onStore_returns returns carries).bind
  rintro ⟨outcome, t⟩
  refine .from_state ?_
  rintro e ⟨steady, entered⟩
  dsimp only
  split
  · exact .pure fun _ same => ⟨same ▸ steady, nofun⟩
  · have ends := effort.propagateQuery_faultless q implied t entered.size_eq
    have tightened := effort.propagate_tightened t q.equations derived q.relus t .refl
    unfold Effort.propagateQuery at ends ⊢
    cases run : effort.propagate q.equations derived q.relus t with
    | ok news last =>
      rw [run] at tightened
      refine Ends.through (fun _ e => e.Steady c) (.modifyGet ?_) fun _ => .pure fun _ kept => ?_
      · rintro _ rfl
        exact ⟨steady.config, steady.loaded, steady.session⟩
      · exact ⟨kept, fun _ same => Option.some.inj same ▸ entered.tightened tightened⟩
    | error cause last =>
      rw [run] at ends
      obtain rfl := ends
      exact .pure fun _ same => ⟨same ▸ steady, nofun⟩

end Steady

section Decisions

variable {c : SearchConfig Extended}

theorem initialize_carries (q : Query Extended) (t : Tolerance Extended) :
    ∃ s, (Store.new t).initialize? q.size = .ok s ∧ s.Carries q [] := by
  refine ⟨⟨Array.replicate q.size Cell.unbounded, .empty, .absent, t⟩, if_pos rfl, ?_, rfl, ?_, ?_⟩
  · simp [Store.size]
  · simp [Trail.empty]
  · exact List.forall_mem_nil _

variable {epsilon : ℚ} (same : c.epsilon = finite epsilon) (positive : 0 ≤ epsilon)
include same positive

theorem prepare_steady (split : CaseSplit Extended) (limit : Duration)
    (state : Option (TreeState Extended)) :
    Ends (fun e => e.Steady c ∧ ∀ l ∈ e.loaded, split.Known l.query.size) (prepare split limit state)
      (fun _ e => e.Steady c) fun cause e => cause.IsFailure ∧ e.Steady c := by
  obtain ⟨effort, made⟩ := SearchConfig.effort_total same positive
  apply Ends.get_bind
  rintro e ⟨steady, known⟩
  rw [steady.config]
  apply ofFault_ok made
  apply Ends.get_bind
  rintro _ rfl
  split
  next l shape =>
    have knows := steady.loaded l shape
    obtain ⟨empty, initialized, carries⟩ := initialize_carries l.query effort.tolerance
    apply ofFault_ok initialized
    have returns : Returns (Store.Carries l.query []) (enterBounds 0 l.query.bounds.toList)
        fun _ => Store.Carries l.query [] :=
      Store.Carries.step (enterBounds_total (by simp))
        fun start => enterBounds_tightened start 0 l.query.bounds.toList
    apply (onStore_returns returns carries).bind
    rintro ⟨_, bounded⟩
    refine .from_state ?_
    rintro _ ⟨rfl, carries⟩
    apply ((warmStart_steadily carries state).here steady).bind
    intro warm
    refine .from_state ?_
    rintro e ⟨steady, warmed⟩
    cases warm with
    | none => exact .pure fun _ same => same ▸ steady
    | some warm =>
      apply ((propagateRoot_steadily (warmed _ rfl) knows.derived (known l shape) effort).here
        steady).bind
      intro root
      cases root with
      | none => exact .pure fun _ kept => kept.1
      | some root =>
        refine Ends.through (fun _ e => e.Steady c) (.modifyGet ?_) fun _ => .pure fun _ kept => kept
        rintro e ⟨steady, entered⟩
        refine ⟨steady.config, steady.loaded, fun held same => ?_⟩
        obtain rfl := Option.some.inj same
        exact ⟨knows, entered root rfl⟩
  next => exact .throw fun _ same => ⟨⟨_, rfl⟩, same ▸ steady⟩

theorem start_returns (split : CaseSplit Extended) (limit : Duration)
    (state : Option (TreeState Extended)) :
    Returns (fun e => e.Steady c ∧ ∀ l ∈ e.loaded, split.Known l.query.size)
      (DepthFirst.start split limit state) fun _ e => e.Steady c := by
  rintro e ⟨steady, known⟩
  have ends := prepare_steady same positive split limit state
    { e with solution := none, rootState := none, statistics := .zero, session := none }
    ⟨⟨steady.config, steady.loaded, by simp⟩, known⟩
  unfold DepthFirst.start
  dsimp only
  cases run : prepare split limit state
    { e with solution := none, rootState := none, statistics := .zero, session := none } with
  | ok outcome last =>
    have steady : last.Steady c := by rwa [run] at ends
    cases outcome with
    | none => exact steady
    | some code => exact steady.finish code
  | error cause last =>
    obtain ⟨⟨reason, rfl⟩, steady⟩ : cause.IsFailure ∧ last.Steady c := by rwa [run] at ends
    exact steady.finish .error

omit same positive in
theorem advance_returns (signals : Signals) :
    Returns (Steady c) (advance signals) fun _ e => e.Steady c := by
  intro e steady
  unfold advance
  cases shape : e.session with
  | none => exact steady
  | some held =>
    obtain ⟨p, s⟩ := held
    obtain ⟨knows, balanced⟩ := steady.session (p, s) shape
    have ends := Problem.advance_balanced knows signals s balanced
    dsimp only
    cases run : p.advance signals s with
    | ok ending last =>
      have loaded := steady.keep_loaded p last signals.elapsed
      cases ending with
      | none =>
        refine ⟨steady.config, loaded, fun held same => ?_⟩
        obtain rfl := Option.some.inj same
        exact ⟨knows, by rwa [run] at ends⟩
      | some ending => exact ⟨steady.config, loaded, by simp [finish]⟩
    | error cause last =>
      obtain ⟨reason, rfl⟩ : cause.IsFailure := by rwa [run] at ends
      exact ⟨steady.config, steady.keep_loaded p last signals.elapsed, by simp [finish]⟩

end Decisions

/-- The engines with some settings, after any operations: regular queries are processed with or without
simplifying them, and decisions about regions of the query that is searched, with tree states of any
origin, are begun, carried on and given up. -/
inductive Operated (c : SearchConfig Extended) : DepthFirst Extended → Prop where
  | new : Operated c (new c)
  | diversify {e : DepthFirst Extended} (before : Operated c e) (seed : UInt64)
      (heuristic : BranchingHeuristic) : Operated c (e.diversify seed heuristic)
  | process {e : DepthFirst Extended} (before : Operated c e) {raw : Query Extended}
      (regular : raw.Regular) (simplified : Bool) :
      Operated c (stateAfter (process raw simplified e))
  | start {e : DepthFirst Extended} (before : Operated c e) {split : CaseSplit Extended}
      (known : ∀ l ∈ e.loaded, split.Known l.query.size) (limit : Duration)
      (state : Option (TreeState Extended)) :
      Operated c (stateAfter (DepthFirst.start split limit state e))
  | advance {e : DepthFirst Extended} (before : Operated c e) (signals : Signals) :
      Operated c (stateAfter (advance signals e))

section Operated

variable {c : SearchConfig Extended} {epsilon : ℚ} (same : c.epsilon = finite epsilon)
  (positive : 0 ≤ epsilon)
include same positive

theorem Operated.steady {e : DepthFirst Extended} (operated : Operated c e) : e.Steady c := by
  induction operated with
  | new => exact .new c
  | diversify _ seed heuristic ih => exact ih.diversify seed heuristic
  | @process e _ raw regular simplified ih =>
    have ends := process_steadily same positive regular simplified e ih
    cases run : DepthFirst.process raw simplified e with
    | ok =>
      rw [run] at ends
      exact ends.1
    | error =>
      rw [run] at ends
      exact ends.2
  | start _ known limit state ih =>
    obtain ⟨outcome, last, run, steady⟩ := (start_returns same positive _ limit state).run ⟨ih, known⟩
    rw [run]
    exact steady
  | advance _ signals ih =>
    obtain ⟨outcome, last, run, steady⟩ := (advance_returns signals).run ih
    rw [run]
    exact steady

theorem start_operated (split : CaseSplit Extended) (limit : Duration)
    (state : Option (TreeState Extended)) :
    Returns (fun e => e.Operated c ∧ ∀ l ∈ e.loaded, split.Known l.query.size)
      (DepthFirst.start split limit state) fun _ e => e.Operated c := by
  rintro e ⟨operated, known⟩
  obtain ⟨outcome, last, run, -⟩ := (start_returns same positive split limit state).run
    ⟨operated.steady same positive, known⟩
  have after := operated.start known limit state
  rw [run] at after ⊢
  exact after

theorem advance_operated (signals : Signals) :
    Returns (Operated c) (advance signals) fun _ e => e.Operated c := by
  intro e operated
  obtain ⟨outcome, last, run, -⟩ := (advance_returns signals).run (operated.steady same positive)
  have after := operated.advance signals
  rw [run] at after ⊢
  exact after

/-- A decision only fails to come to an end within too few steps. -/
theorem solveWithin_operated (fuel : Nat) (world : Nat → Signals) (split : CaseSplit Extended)
    (limit : Duration) (state : Option (TreeState Extended)) :
    Ends (fun e => e.Operated c ∧ ∀ l ∈ e.loaded, split.Known l.query.size)
      (SearchEngine.solveWithin fuel world split limit state :
        EStateM Fault (DepthFirst Extended) ExitCode)
      (fun _ e => e.Operated c) fun cause e => cause = .unfinished ∧ e.Operated c := by
  have begins : Ends (fun e => e.Operated c ∧ ∀ l ∈ e.loaded, split.Known l.query.size)
      (DepthFirst.start split limit state) (fun _ e => e.Operated c)
      fun cause e => cause = .unfinished ∧ e.Operated c :=
    (start_operated same positive split limit state).ends
  have goesOn : ∀ signals, Ends (Operated c) (advance signals) (fun _ e => e.Operated c)
      fun cause e => cause = .unfinished ∧ e.Operated c :=
    fun signals => (advance_operated same positive signals).ends
  exact SearchEngine.solveWithin_ends begins goesOn (fun _ operated => ⟨rfl, operated⟩) fuel world

/-- No operation of the engine ends in a fault. Its search has one open checkpoint for each frame of
its stack, both where a step visits a node and where the step starts to come back, which is where
`descend` ends, by `visitNode_proceed`. -/
theorem operated_faultless :
    (∀ raw : Query Extended, raw.Regular → ∀ simplified,
      Ends (Operated c) (process raw simplified) (fun _ e => e.Operated c)
        fun cause e => cause.IsFailure ∧ e.Operated c) ∧
    (∀ (split : CaseSplit Extended) (limit : Duration) (state : Option (TreeState Extended)),
      Returns (fun e => e.Operated c ∧ ∀ l ∈ e.loaded, split.Known l.query.size)
        (DepthFirst.start split limit state) fun _ e => e.Operated c) ∧
    (∀ signals, Returns (Operated c) (advance signals) fun _ e => e.Operated c) ∧
    (∀ (fuel : Nat) (world : Nat → Signals) (split : CaseSplit Extended) (limit : Duration)
      (state : Option (TreeState Extended)),
      Ends (fun e => e.Operated c ∧ ∀ l ∈ e.loaded, split.Known l.query.size)
        (SearchEngine.solveWithin fuel world split limit state :
          EStateM Fault (DepthFirst Extended) ExitCode)
        (fun _ e => e.Operated c) fun cause e => cause = .unfinished ∧ e.Operated c) ∧
    ∀ e, Operated c e → ∀ p s, e.session = some (p, s) →
      s.Balanced p.query ∧
      ∀ found last, p.descend { s with monitors := s.monitors.map Monitor.step } = .ok found last →
        last.Balanced p.query := by
  refine ⟨fun raw regular simplified e operated => ?_, start_operated same positive,
    advance_operated same positive, solveWithin_operated same positive, fun e operated p s shape => ?_⟩
  · have ends := process_steadily same positive regular simplified e (operated.steady same positive)
    have after := operated.process regular simplified
    cases run : process raw simplified e with
    | ok value last =>
      rw [run] at after
      exact after
    | error cause last =>
      rw [run] at after ends
      exact ⟨ends.1, after⟩
  · obtain ⟨knows, balanced⟩ := (operated.steady same positive).session (p, s) shape
    refine ⟨balanced, fun found last run => ?_⟩
    have stepped : Session.Balanced p.query { s with monitors := s.monitors.map Monitor.step } := balanced
    exact (Problem.descend_balanced knows).ok stepped run

end Operated

/-- A search that has branched once, in a query that simplifying has made smaller. -/
theorem operated_faultless_branched :
    let settings : SearchConfig Extended := ⟨finite (1 / 1000), .forrestTomlin, ⟨1, 1⟩, 1, 0, 0, 0, 1⟩
    let raw : Query Extended := { Query.unconstrained 4 with
      bounds := #v[⟨-1, 1⟩, ⟨0, 1⟩, ⟨1, 1⟩, ⟨-2, 2⟩]
      equations := [⟨[⟨1, 0⟩, ⟨1, 1⟩, ⟨-1, 2⟩, ⟨-1, 3⟩], 0⟩]
      equations_known := by decide
      relus := [⟨0, 1⟩]
      relus_known := by decide }
    let calm : Signals := ⟨false, .zero⟩
    let loaded := stateAfter (process raw true (new settings))
    let begun := stateAfter (DepthFirst.start .empty .zero none loaded)
    let branched := stateAfter (advance calm begun)
    settings.epsilon = finite (1 / 1000) ∧ (0 : ℚ) ≤ 1 / 1000 ∧ raw.Regular ∧
      process raw true (new settings) = .ok true loaded ∧ begun.Operated settings ∧
      branched.Operated settings ∧
      (∃ p s, branched.session = some (p, s) ∧ s.stack.length = 1 ∧ s.store.depth = 1) ∧
      ∃ last, loaded.solve (fun _ => calm) .empty .zero none = .ok .sat last ∧ last.Operated settings := by
  intro settings raw calm loaded begun branched
  have positive : (0 : ℚ) ≤ 1 / 1000 := by norm_num
  have regular : raw.Regular := Query.WellFormed.regular (by decide +kernel)
  obtain ⟨processes, starts, advances, solves, balanced⟩ :=
    @operated_faultless settings (1 / 1000) rfl positive
  have load : process raw true (new settings) = .ok true loaded := eq_ok_of_answer (by decide +kernel)
  have engine : loaded.Operated settings := (processes raw regular true).ok .new load
  have known : ∀ l ∈ loaded.loaded, (CaseSplit.empty : CaseSplit Extended).Known l.query.size := by
    simp [CaseSplit.Known, CaseSplit.empty]
  have begin : DepthFirst.start .empty .zero none loaded = .ok none begun :=
    eq_ok_of_answer (by decide +kernel)
  have first : begun.Operated settings := (starts .empty .zero none).ok ⟨engine, known⟩ begin
  have descend : advance calm begun = .ok none branched := eq_ok_of_answer (by decide +kernel)
  have second : branched.Operated settings := (advances calm).ok first descend
  have solve : loaded.solve (fun _ => calm) .empty .zero none = .ok .sat
      (stateAfter (loaded.solve (fun _ => calm) .empty .zero none)) :=
    eq_ok_of_answer (by decide +kernel)
  refine ⟨rfl, positive, regular, load, first, second, ?_, _, solve,
    (solves _ _ .empty .zero none).ok ⟨engine, known⟩ solve⟩
  have frames : branched.session.map (·.2.stack.length) = some 1 := by decide +kernel
  obtain ⟨⟨p, s⟩, shape, one⟩ := Option.map_eq_some_iff.mp frames
  exact ⟨p, s, shape, one, (balanced branched second p s shape).1.depth.trans one⟩

/-- A region is described in the variables of the simplified query, where a variable of the given
query may not be there any more. -/
theorem decision_breaks_dropped :
    let settings : SearchConfig Extended := ⟨finite (1 / 1000), .forrestTomlin, ⟨1, 1⟩, 1, 0, 0, 0, 1⟩
    let raw : Query Extended := { Query.unconstrained 1 with bounds := #v[⟨1, 1⟩] }
    let split : CaseSplit Extended := ⟨[.lower 0 0]⟩
    let loaded := stateAfter (process raw true (new settings))
    raw.WellFormed ∧ split.Known raw.size ∧ process raw true (new settings) = .ok true loaded ∧
      ∃ last, loaded.solve (fun _ => ⟨false, .zero⟩) split .zero none =
        .error (.variableOutOfRange .storeTightenLower 0 0) last := by
  intro settings raw split loaded
  have known : split.Known raw.size := by
    simp [split, raw, CaseSplit.Known, Tightening.lower, Query.unconstrained]
  exact ⟨by decide +kernel, known, eq_ok_of_answer (by decide +kernel), _,
    eq_error_of_refusal (by decide +kernel)⟩

end DepthFirst

end ReluSolver
