import ReluSolver.Proofs.EngineFootprint

/-! An engine that has decided regions before answers like one that has not. Both work
with the same, and what they differ in, their last exit code and the map to the query
that they were given, no decision looks at. -/

namespace ReluSolver

section TwoRuns

variable {ε σ β γ : Type}

/-- Two runs end with the same value, in states that are related, or with the same failure. -/
def Agree (related : β → σ → σ → Prop) : EStateM.Result ε σ β → EStateM.Result ε σ β → Prop
  | .ok value last, .ok value' last' => value' = value ∧ related value last last'
  | .error cause _, .error cause' _ => cause' = cause
  | _, _ => False

theorem Agree.bind {middle : β → σ → σ → Prop} {last : γ → σ → σ → Prop} {x x' : EStateM ε σ β}
    {next next' : β → EStateM ε σ γ} {first second : σ} (agree : Agree middle (x first) (x' second))
    (rest : ∀ value s s', middle value s s' → Agree last (next value s) (next' value s')) :
    Agree last ((x >>= next) first) ((x' >>= next') second) := by
  change Agree last (EStateM.bind x next first) (EStateM.bind x' next' second)
  unfold EStateM.bind
  cases run : x first <;> cases run' : x' second <;> rw [run, run'] at agree
  case ok.ok =>
    obtain ⟨rfl, holds⟩ := agree
    exact rest _ _ _ holds
  case error.error => exact agree
  all_goals exact agree.elim

end TwoRuns

namespace Session

variable {α : Type}

/-- No monitor of the search has a time limit. -/
def Unlimited (s : Session α) : Prop := ∀ m ∈ s.monitors, m.isUnbounded? ≠ some false

theorem Unlimited.proceeds {s : Session α} (unlimited : s.Unlimited) {signals : Signals}
    (calm : signals.quit = false) : Monitor.commandOf signals s.monitors = .proceed := by
  have each : ∀ ms : List Monitor, (∀ m ∈ ms, m.isUnbounded? ≠ some false) →
      Monitor.commandOf signals ms = .proceed := by
    intro ms unlimited
    induction ms with
    | nil => rfl
    | cons m rest ih =>
      have here : m.command signals = .proceed := by
        cases m with
        | interrupt => simp [Monitor.command, calm]
        | timeLimit limit mask steps =>
          have zero : limit.isZero = true := by simpa [Monitor.isUnbounded?] using unlimited _ List.mem_cons_self
          simp [Monitor.command, zero]
      rw [Monitor.commandOf, here]
      exact ih fun other member => unlimited other (List.mem_cons_of_mem _ member)
  exact each s.monitors unlimited

theorem Unlimited.stepped {s : Session α} (unlimited : s.Unlimited) :
    Unlimited { s with monitors := s.monitors.map Monitor.step } := by
  intro m member
  obtain ⟨before, inside, rfl⟩ := List.mem_map.mp member
  cases before with
  | interrupt => exact unlimited _ inside
  | timeLimit limit mask steps => exact unlimited (.timeLimit limit mask steps) inside

end Session

theorem modify_bind_apply {ε σ β : Type} (f : σ → σ) (next : Unit → EStateM ε σ β) (s : σ) :
    (modify f >>= next) s = next () (f s) := rfl

theorem get_bind_apply {ε σ β : Type} (next : σ → EStateM ε σ β) (s : σ) :
    (get >>= next) s = next s s := rfl

/-- A step of a search without a time limit does not look at the world. -/
theorem Problem.advance_calm {α : Type} [Scalar α] (p : Problem α) {s : Session α}
    (unlimited : s.Unlimited) {signals : Signals} (calm : signals.quit = false) :
    p.advance signals s =
      (p.visitNode >>= p.proceed) { s with monitors := s.monitors.map Monitor.step } := by
  have proceeds := unlimited.stepped.proceeds calm
  simp only [Problem.advance, modify_bind_apply, get_bind_apply, proceeds]

namespace DepthFirst

variable {α : Type}

/-- The engine with another report of its last decision and of where its query came from. -/
def retold (code : ExitCode) (map : VariableMap α) (e : DepthFirst α) : DepthFirst α :=
  { e with exitCode := code, loaded := e.loaded.map ({ · with map := map }) }

/-- A step that does the same when the engine is retold. -/
def Overlooks {β : Type} (code : ExitCode) (map : VariableMap α) (step : Action α β) : Prop :=
  ∀ e : DepthFirst α, step (e.retold code map) =
    match step e with
    | .ok value last => .ok value (last.retold code map)
    | .error cause last => .error cause (last.retold code map)

section Retold

variable {code : ExitCode} {map : VariableMap α} {β γ : Type}

namespace Overlooks

theorem pure (value : β) : Overlooks code map (Pure.pure value : Action α β) := fun _ => rfl

theorem throw (cause : Abort) : Overlooks code map (MonadExcept.throw cause : Action α β) :=
  fun _ => rfl

theorem bind {step : Action α β} {next : β → Action α γ} (first : Overlooks code map step)
    (rest : ∀ value, Overlooks code map (next value)) : Overlooks code map (step >>= next) := by
  intro e
  change EStateM.bind step next (e.retold code map) = match EStateM.bind step next e with
    | .ok value last => .ok value (last.retold code map)
    | .error cause last => .error cause (last.retold code map)
  unfold EStateM.bind
  rw [first e]
  cases step e with
  | ok value last => exact rest value last
  | error => rfl

theorem modifyGet {change : DepthFirst α → β × DepthFirst α}
    (apart : ∀ e, change (e.retold code map) = ((change e).1, (change e).2.retold code map)) :
    Overlooks code map (MonadStateOf.modifyGet change : Action α β) := by
  intro e
  change EStateM.Result.ok (change (e.retold code map)).1 (change (e.retold code map)).2 = _
  rw [apart]
  rfl

/-- What follows on reading the engine does not depend on what is retold. -/
theorem get_bind {next : DepthFirst α → Action α γ}
    (apart : ∀ e : DepthFirst α, next (e.retold code map) = next e)
    (rest : ∀ e, Overlooks code map (next e)) :
    Overlooks code map (MonadState.get >>= next) := by
  intro e
  change next (e.retold code map) (e.retold code map) = match next e e with
    | .ok value last => .ok value (last.retold code map)
    | .error cause last => .error cause (last.retold code map)
  rw [apart]
  exact rest e e

end Overlooks

theorem ofFault_overlooks (result : Except Fault β) :
    Overlooks code map (ofFault result : Action α β) := by
  cases result with
  | ok => exact .pure _
  | error => exact .throw _

theorem onStore_overlooks (s : Store α) (action : Store.Action Fault α β) :
    Overlooks code map (onStore s action) := by
  intro e
  unfold onStore
  cases action s <;> rfl

theorem takeFactorization_overlooks (state : TreeState α) :
    Overlooks code map (takeFactorization state) := by
  refine .modifyGet fun e => ?_
  obtain ⟨c, seed, heuristic, loaded, exit, solution, root, statistics, session⟩ := e
  obtain ⟨bounds, brought⟩ := state
  cases loaded with
  | none => rfl
  | some l =>
    obtain ⟨q, m, b, present, d⟩ := l
    cases brought with
    | none => rfl
    | some source =>
      cases present with
      | none => rfl
      | some target =>
        dsimp only [retold, Option.map_some]
        cases target.restoreFrom source <;> rfl

variable [Scalar α]

theorem warmStart_overlooks (s : Store α) (state : Option (TreeState α)) :
    Overlooks code map (warmStart s state) := by
  unfold warmStart
  cases state with
  | none => exact .pure _
  | some state =>
    refine (onStore_overlooks s _).bind fun (result, s) => ?_
    cases result with
    | error cause => exact .throw _
    | ok outcome =>
      dsimp only
      split
      · exact .pure _
      · exact (takeFactorization_overlooks state).bind fun _ => .pure _

theorem propagateRoot_overlooks (effort : Effort α) (split : CaseSplit α) (s : Store α)
    (q : Query α) (derived : List (Equation α)) :
    Overlooks code map (propagateRoot effort split s q derived) := by
  refine (onStore_overlooks s _).bind fun (outcome, s) => ?_
  dsimp only
  split
  · exact .pure _
  · cases effort.propagateQuery q derived s with
    | ok news last => exact .bind (.modifyGet fun _ => rfl) fun _ => .pure _
    | error cause last =>
      cases cause with
      | conflict => exact .pure _
      | factorization | fault => exact .throw _

theorem prepare_overlooks (split : CaseSplit α) (limit : Duration) (state : Option (TreeState α)) :
    Overlooks code map (prepare split limit state) := by
  refine .get_bind (fun _ => rfl) fun e => ?_
  refine (ofFault_overlooks _).bind fun effort => ?_
  refine .get_bind (fun e => ?_) fun e => ?_
  · obtain ⟨c, seed, heuristic, loaded, exit, solution, root, statistics, session⟩ := e
    cases loaded <;> rfl
  split
  next l _ =>
    refine (ofFault_overlooks _).bind fun empty => ?_
    refine (onStore_overlooks empty _).bind fun (_, bounded) => ?_
    refine (warmStart_overlooks bounded state).bind fun warm => ?_
    cases warm with
    | none => exact .pure _
    | some warm =>
      refine (propagateRoot_overlooks effort split warm _ _).bind fun root => ?_
      cases root with
      | none => exact .pure _
      | some root =>
        refine .bind (.modifyGet fun e => ?_) fun _ => .pure _
        obtain ⟨c, seed, heuristic, loaded, exit, solution, root, statistics, session⟩ := e
        cases loaded <;> rfl
  next => exact .throw _

end Retold

/-- Engines between which the rest of a decision makes no difference. -/
structure Alike (first second : DepthFirst α) : Prop where
  session : second.session = first.session
  solution : second.solution = first.solution
  root : second.rootState = first.rootState
  statistics : { second.statistics with duration := .zero } =
    { first.statistics with duration := .zero }

/-- What two engines that are alike have come to: a search without a time limit is under way, or both
have ended with a code. -/
structure Abreast (outcome : Option ExitCode) (first second : DepthFirst α) : Prop where
  alike : Alike first second
  underway : outcome = none → ∃ p s, first.session = some (p, s) ∧ s.Unlimited
  ended : ∀ code, outcome = some code → first.exitCode = code ∧ second.exitCode = code

/-- Two engines give the same answer: the exit code, the solution, the tree state, and all counters but
the duration. -/
structure SameAnswer (first second : DepthFirst α) : Prop where
  exitCode : second.exitCode = first.exitCode
  solution : second.solution? = first.solution?
  root : second.rootState = first.rootState
  statistics : { second.statistics with duration := .zero } =
    { first.statistics with duration := .zero }

theorem Abreast.sameAnswer {first second : DepthFirst α} {code : ExitCode}
    (abreast : Abreast (some code) first second) : SameAnswer first second := by
  obtain ⟨alike, -, ended⟩ := abreast
  obtain ⟨exit, exit'⟩ := ended code rfl
  exact ⟨exit'.trans exit.symm, by rw [solution?, solution?, exit, exit', alike.solution],
    alike.root, alike.statistics⟩

variable [Scalar α]

theorem advance_agree {first second : DepthFirst α} (abreast : Abreast none first second)
    {signals signals' : Signals} (calm : signals.quit = false) (calm' : signals'.quit = false) :
    Agree Abreast (advance signals first) (advance signals' second) := by
  obtain ⟨p, s, shape, unlimited⟩ := abreast.underway rfl
  obtain ⟨session, solution, root, statistics⟩ := abreast.alike
  rw [shape] at session
  have tools := p.advance_tools signals s
  unfold advance
  rw [shape, session]
  dsimp only
  have same : p.advance signals' s = p.advance signals s := by
    rw [p.advance_calm unlimited calm, p.advance_calm unlimited calm']
  rw [same]
  cases run : p.advance signals s with
  | ok ending last =>
    have monitors := (tools.ok rfl run).monitors
    cases ending with
    | none =>
      refine ⟨rfl, ⟨rfl, solution, root, rfl⟩, fun _ => ⟨p, last, rfl, ?_⟩, nofun⟩
      rw [Session.Unlimited, monitors]
      exact unlimited.stepped
    | some ending =>
      refine ⟨rfl, ⟨rfl, rfl, root, rfl⟩, nofun, fun code same => ?_⟩
      exact ⟨Option.some.inj same, Option.some.inj same⟩
  | error cause last =>
    cases cause with
    | failure =>
      refine ⟨rfl, ⟨rfl, solution, root, rfl⟩, nofun, fun code same => ?_⟩
      exact ⟨Option.some.inj same, Option.some.inj same⟩
    | fault => rfl

theorem prepare_unlimited (split : CaseSplit α) (state : Option (TreeState α)) :
    Ends (fun _ => True) (prepare split .zero state)
      (fun outcome e => outcome = none → ∃ p s, e.session = some (p, s) ∧ s.Unlimited)
      fun _ _ => True := by
  refine Ends.get_bind fun e _ => Ends.bind Ends.anything fun effort => ?_
  refine Ends.get_bind fun e _ => ?_
  split
  next l _ =>
    refine Ends.bind Ends.anything fun empty => ?_
    refine Ends.bind Ends.anything fun (_, bounded) => ?_
    refine Ends.bind Ends.anything fun warm => ?_
    cases warm with
    | none => exact .pure fun _ _ => nofun
    | some warm =>
      refine Ends.bind Ends.anything fun root => ?_
      cases root with
      | none => exact .pure fun _ _ => nofun
      | some root =>
        refine Ends.through (fun _ e => ∃ p s, e.session = some (p, s) ∧ s.Unlimited)
          (.modifyGet fun e _ => ⟨_, _, rfl, ?_⟩) fun _ => .pure fun _ begun _ => begun
        simp [Session.Unlimited, Monitor.isUnbounded?, Duration.isZero, Duration.zero]
  next => exact .throw fun _ _ => trivial

/-- The engine as a decision begins. -/
def cleared (e : DepthFirst α) : DepthFirst α :=
  { e with solution := none, rootState := none, statistics := .zero, session := none }

theorem start_eq (split : CaseSplit α) (limit : Duration) (state : Option (TreeState α))
    (e : DepthFirst α) :
    DepthFirst.start split limit state e = match prepare split limit state e.cleared with
      | .ok none last => .ok none last
      | .ok (some code) last => .ok (some code) (last.finish code)
      | .error (.failure _) last => .ok (some .error) (last.finish .error)
      | .error (.fault cause) last => .error cause last := rfl

theorem start_agree {first second : DepthFirst α} {code : ExitCode} {map : VariableMap α}
    (same : second.cleared = first.cleared.retold code map) (split : CaseSplit α)
    (state : Option (TreeState α)) :
    Agree Abreast (DepthFirst.start split .zero state first)
      (DepthFirst.start split .zero state second) := by
  have retells : Overlooks code map (prepare split .zero state) := prepare_overlooks split .zero state
  rw [start_eq, start_eq, same, retells]
  cases run : prepare split .zero state first.cleared with
  | ok outcome last =>
    cases outcome with
    | none =>
      have begun := (prepare_unlimited split state).ok trivial run
      exact ⟨rfl, ⟨rfl, rfl, rfl, rfl⟩, begun, nofun⟩
    | some code =>
      refine ⟨rfl, ⟨rfl, rfl, rfl, rfl⟩, nofun, fun other same => ?_⟩
      exact ⟨Option.some.inj same, Option.some.inj same⟩
  | error cause last =>
    cases cause with
    | failure =>
      refine ⟨rfl, ⟨rfl, rfl, rfl, rfl⟩, nofun, fun other same => ?_⟩
      exact ⟨Option.some.inj same, Option.some.inj same⟩
    | fault => rfl

/-- Decisions that begin alike end with the same answer, whenever the clock is looked at. -/
theorem solveWithin_agree {first second : DepthFirst α} {code : ExitCode} {map : VariableMap α}
    (same : second.cleared = first.cleared.retold code map) (fuel : Nat) {world world' : Nat → Signals}
    (calm : ∀ n, (world n).quit = false) (calm' : ∀ n, (world' n).quit = false) (split : CaseSplit α)
    (state : Option (TreeState α)) :
    Agree (fun _ => SameAnswer) (SearchEngine.solveWithin fuel world split .zero state first)
      (SearchEngine.solveWithin fuel world' split .zero state second) := by
  have carried : ∀ fuel step (e e' : DepthFirst α), Abreast none e e' →
      Agree (fun _ => SameAnswer) (SearchEngine.advanceFor world step fuel e)
        (SearchEngine.advanceFor world' step fuel e') := by
    intro fuel
    induction fuel with
    | zero => exact fun _ _ _ _ => rfl
    | succ fuel ih =>
      intro step e e' abreast
      refine (advance_agree abreast (calm step) (calm' step)).bind fun outcome last last' after => ?_
      cases outcome with
      | some code => exact ⟨rfl, after.sameAnswer⟩
      | none => exact ih (step + 1) last last' after
  refine (start_agree same split state).bind fun outcome last last' after => ?_
  cases outcome with
  | some code => exact ⟨rfl, after.sameAnswer⟩
  | none => exact carried fuel 1 last last' after

/-- A decision of an engine that has decided regions before gives the same answer as one of an engine
that has only processed the query, and the factorization that it works with is the same. -/
theorem reuse_invisible {c : SearchConfig α} {q : Option (Query α)} {used : DepthFirst α}
    (reused : Reused c q used) {e : DepthFirst α} (settings : e.config = c) (raw : Query α)
    (simplified : Bool) (processed : (stateAfter (process raw simplified e)).loaded.map (·.query) = q)
    (fuel : Nat) {world world' : Nat → Signals} (calm : ∀ n, (world n).quit = false)
    (calm' : ∀ n, (world' n).quit = false) (seed : UInt64) (heuristic : BranchingHeuristic)
    (split : CaseSplit α) (state : Option (TreeState α)) :
    let fresh := stateAfter (process raw simplified e)
    used.loaded.bind (·.factorization) = fresh.loaded.bind (·.factorization) ∧
      Agree (fun _ => SameAnswer)
        (SearchEngine.solveWithin fuel world split .zero state (fresh.diversify seed heuristic))
        (SearchEngine.solveWithin fuel world' split .zero state (used.diversify seed heuristic)) := by
  intro fresh
  obtain ⟨given, query, original, intact⟩ := (Reused.process settings raw simplified processed).intact
  obtain ⟨given', query', original', intact'⟩ := reused.intact
  obtain ⟨map, rfl⟩ := Loaded.eq_of_original original original' (query'.trans query.symm)
  constructor
  · rw [intact'.loaded, intact.loaded]
    cases given <;> rfl
  · have same : (used.diversify seed heuristic).cleared =
        (fresh.diversify seed heuristic).cleared.retold used.exitCode map := by
      simp only [cleared, retold, diversify, intact.config, intact'.config, intact'.loaded, fresh,
        intact.loaded]
    exact solveWithin_agree same fuel calm calm' split state

/-- A search of few candidates, without any random ones. -/
private def plainSearch : SearchConfig Extended := ⟨0, .denseLu, ⟨1, 1⟩, 1, 0, 0, 1, 0⟩

/-- `c·x1 = x0` for `x0` in `[1, 2]` and `x1` in `[0, 4]`. -/
private def multiple (c : Extended) : Query Extended where
  size := 2
  bounds := #v[⟨1, 2⟩, ⟨0, 4⟩]
  equations := [⟨[⟨c, 1⟩, ⟨-1, 0⟩], 0⟩]
  relus := []
  inputs := []
  outputs := []
  solution := none
  equations_known := by simp
  relus_known := by simp
  inputs_known := by simp
  outputs_known := by simp

private def calm : Nat → Signals := fun _ => ⟨false, .zero⟩

private def quitting : Nat → Signals := fun _ => ⟨true, .zero⟩

/-- An interrupted decision and one that started from its tree state leave no trace. -/
theorem reuse_invisible_interrupted :
    let fresh := stateAfter (process (multiple 2) false (new plainSearch))
    let stopped := stateAfter (SearchEngine.solveWithin 2 quitting .empty .zero none fresh)
    let used := stateAfter
      (SearchEngine.solveWithin 2 calm ⟨[.lower 0 2]⟩ .zero stopped.rootState stopped)
    (SearchEngine.solveWithin 2 quitting .empty .zero none fresh = .ok .quitRequested stopped ∧
      SearchEngine.solveWithin 2 calm ⟨[.lower 0 2]⟩ .zero stopped.rootState stopped =
        .ok .sat used) ∧
    answer? (SearchEngine.solveWithin 2 calm .empty .zero none (fresh.diversify 7 .polarity)) =
      some .sat ∧
    Agree (fun _ => SameAnswer)
      (SearchEngine.solveWithin 2 calm .empty .zero none (fresh.diversify 7 .polarity))
      (SearchEngine.solveWithin 2 calm .empty .zero none (used.diversify 7 .polarity)) := by
  intro fresh stopped used
  have stop : SearchEngine.solveWithin 2 quitting .empty .zero none fresh =
      .ok .quitRequested stopped := eq_ok_of_answer (by decide +kernel)
  have narrow : SearchEngine.solveWithin 2 calm ⟨[.lower 0 2]⟩ .zero stopped.rootState stopped =
      .ok .sat used := eq_ok_of_answer (by decide +kernel)
  have root : stopped.rootState = some (stopped.rootState.get (by decide +kernel)) := by simp
  have begun : Reused plainSearch _ fresh := .process (e := new plainSearch) rfl (multiple 2) false rfl
  have interrupted : Reused plainSearch _ stopped := .cold begun stop
  have reused : Reused plainSearch _ used := .warm interrupted interrupted root (root ▸ narrow)
  exact ⟨⟨stop, narrow⟩, by decide +kernel,
    (reuse_invisible reused (e := new plainSearch) rfl (multiple 2) false rfl 2
      (fun _ => rfl) (fun _ => rfl) 7 .polarity .empty none).2⟩

/-- A tree state of another query brings a factorization that does not fit, and hands it on: an engine
that starts from a tree state of the same query may no longer find the solution. -/
theorem reuse_visible_foreign :
    let fresh := stateAfter (process (multiple 2) false (new plainSearch))
    let other := stateAfter (process (multiple 1) false (new plainSearch))
    let foreign := (stateAfter (other.solve calm .empty .zero none)).rootState
    let producer := stateAfter (fresh.solve calm .empty .zero foreign)
    let used := stateAfter (fresh.solve calm .empty .zero producer.rootState)
    (Processed (multiple 2) fresh ∧ Processed (multiple 2) producer ∧
      producer.config = fresh.config ∧ producer.rootState.isSome = true) ∧
    fresh.solve calm .empty .zero producer.rootState = .ok .timeout used ∧
      (used.seed = fresh.seed ∧ used.heuristic = fresh.heuristic) ∧
      answer? (fresh.solve calm .empty .zero none) = some .sat ∧
      answer? (used.solve calm .empty .zero none) = some .timeout := by
  intro fresh other foreign producer used
  have load : process (multiple 2) false (new plainSearch) = .ok true fresh :=
    eq_ok_of_answer (by decide +kernel)
  have produce : fresh.solve calm .empty .zero foreign = .ok .timeout producer :=
    eq_ok_of_answer (by decide +kernel)
  have take : fresh.solve calm .empty .zero producer.rootState = .ok .timeout used :=
    eq_ok_of_answer (by decide +kernel)
  have begun : Processed (multiple 2) fresh := .load rfl (by decide +kernel) load
  have kept := (solve_keeps fresh calm .empty .zero foreign).ok ⟨rfl, rfl⟩ produce
  exact ⟨⟨begun, .solve begun produce, kept.config, by decide +kernel⟩, take,
    ⟨by decide +kernel, by decide +kernel⟩, by decide +kernel, by decide +kernel⟩

end DepthFirst

end ReluSolver
