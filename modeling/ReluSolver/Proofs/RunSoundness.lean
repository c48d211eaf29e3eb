import ReluSolver.Proofs.DivisionCover
import ReluSolver.Proofs.EngineSoundness
import ReluSolver.Proofs.PresolveSoundness
import ReluSolver.Proofs.RunMoves

/-! A run that ends unsatisfied is about a query without a solution. In every state of a
run a solution is in the region of a subquery that is neither resolved nor replaced. -/

namespace ReluSolver

open Extended

variable {p q : Query Extended} {x : Variable → ℚ}

/-- The tree state that a subquery brings along excludes no assignment in its region. -/
def Subquery.Admits (s : Subquery Extended) (x : Variable → ℚ) : Prop :=
  s.split.Holds x → ∀ state ∈ s.state, state.Admits x

theorem Subquery.admits_of_fresh {s : Subquery Extended} (fresh : s.state = none) : s.Admits x := by
  intro _ state found
  rw [fresh] at found
  cases found

/-- An answer about a region that does not lose an assignment in it. -/
def Reaction.Keeps (x : Variable → ℚ) : Reaction Extended → Prop
  | .resolved => False
  | .divided children => ∃ child ∈ children, child.split.Holds x
  | .requeued again => again.split.Holds x
  | _ => True

namespace WorkPlan

variable {plan : WorkPlan Extended} {s : Subquery Extended} {state : Option (TreeState Extended)}

theorem prolong_keeps (hold : ∀ r ∈ plan.division.query.relus, r.Holds x) (admits : s.Admits x)
    (left : s.split.Holds x → ∀ found ∈ state, found.Admits x) :
    (s.split.Holds x → (plan.prolong s state).Keeps x) ∧
      ∀ child ∈ (plan.prolong s state).offspring, child.Admits x := by
  unfold prolong
  dsimp only
  split
  · split
    · exact ⟨fun _ => trivial, List.forall_mem_nil _⟩
    next children divided =>
      obtain ⟨made, fresh⟩ := Division.subqueries_madeOf hold divided
      simp only [CaseSplit.MadeOf, List.mem_map, exists_exists_and_eq_and] at made
      split
      · refine ⟨fun inside => ?_, ?_⟩
        · obtain ⟨child, member, holds⟩ := made.mp inside
          exact ⟨_, List.mem_map_of_mem member, holds⟩
        · rintro _ member holds
          obtain ⟨child, inside, rfl⟩ := List.mem_map.mp member
          exact left (made.mpr ⟨child, inside, holds⟩)
      · exact ⟨made.mp, fun child member => Subquery.admits_of_fresh (fresh child member)⟩
  · refine ⟨id, fun child member => ?_⟩
    obtain rfl := List.mem_singleton.mp member
    exact admits

theorem react_keeps (hold : ∀ r ∈ plan.division.query.relus, r.Holds x) (admits : s.Admits x)
    {code : ExitCode} (sound : s.split.Holds x → code ≠ .unsat)
    (left : s.split.Holds x → ∀ found ∈ state, found.Admits x) :
    (s.split.Holds x → (plan.react s code state).Keeps x) ∧
      ∀ child ∈ (plan.react s code state).offspring, child.Admits x := by
  cases code with
  | timeout => exact prolong_keeps hold admits left
  | unsat => exact ⟨fun inside => sound inside rfl, List.forall_mem_nil _⟩
  | sat | quitRequested | error | notDone => exact ⟨fun _ => trivial, List.forall_mem_nil _⟩

end WorkPlan

/-- When every subquery was answered, and no answer lost an assignment, it was in none of the first
regions. -/
theorem Crew.none_left {start : List (Subquery Extended)} {heard : List (Answer Extended)}
    (complete : (heard.map (·.subquery)).Perm (start ++ heard.flatMap (·.reaction.offspring)))
    (settled : ∀ a ∈ heard, a.reaction = .resolved ∨
      (∃ children, a.reaction = .divided children) ∨ ∃ again, a.reaction = .requeued again)
    (keeps : ∀ a ∈ heard, a.subquery.split.Holds x → a.reaction.Keeps x) :
    ∀ s ∈ start, ¬ s.split.Holds x := by
  classical
  -- An answer that keeps the assignment hands it on to a child, so answered subqueries with the
  -- assignment are never more than children with it. All subqueries but the first are children.
  let inside (s : Subquery Extended) : Bool := decide (s.split.Holds x)
  have passed : ∀ a ∈ heard, (inside a.subquery).toNat ≤ a.reaction.offspring.countP inside := by
    intro a member
    cases holds : inside a.subquery with
    | false => exact Nat.zero_le _
    | true =>
      have kept := keeps a member (of_decide_eq_true holds)
      rcases settled a member with resolved | ⟨children, divided⟩ | ⟨again, requeued⟩
      · rw [resolved] at kept
        exact kept.elim
      · rw [divided] at kept ⊢
        obtain ⟨child, among, within⟩ := kept
        exact List.countP_pos_iff.mpr ⟨child, among, decide_eq_true within⟩
      · rw [requeued] at kept ⊢
        exact List.countP_pos_iff.mpr ⟨again, List.mem_singleton_self _, decide_eq_true kept⟩
  have fewer : (heard.map (·.subquery)).countP inside ≤
      (heard.flatMap (·.reaction.offspring)).countP inside := by
    clear complete settled keeps
    induction heard with
    | nil => exact Nat.le_refl _
    | cons a rest ih =>
      have first := passed a (by simp)
      have others := ih fun other member => passed other (by simp [member])
      rw [List.map_cons, List.countP_cons, List.flatMap_cons, List.countP_append]
      cases holds : inside a.subquery with
      | false => simp only [Bool.false_eq_true, if_false]; omega
      | true => rw [holds] at first; simp only [Bool.toNat_true, if_true] at first ⊢; omega
  have balance := complete.countP_eq inside
  rw [List.countP_append] at balance
  have none : start.countP inside = 0 := by omega
  intro s member holds
  exact List.countP_eq_zero.mp none s member (decide_eq_true holds)

namespace Run

variable {r next : Run (DepthFirst Extended) Extended} {seat : Seat (DepthFirst Extended)}
  {s : Subquery Extended}

theorem runEngine_keeps (r : Run (DepthFirst Extended) Extended) (seat : Seat (DepthFirst Extended))
    (s : Subquery Extended) (now : Duration) (e : DepthFirst Extended) :
    Preserves e.SameQuery (r.runEngine seat s now) := by
  unfold runEngine
  split
  · exact e.start_keeps _ _ _
  · exact e.advance_keeps _

theorem runEngine_serves (r : Run (DepthFirst Extended) Extended) (seat : Seat (DepthFirst Extended))
    (s : Subquery Extended) (now : Duration) :
    Preserves (DepthFirst.Serves p) (r.runEngine seat s now) := fun e serves =>
  (r.runEngine_keeps seat s now e).weaken (fun _ kept => kept) (fun _ _ kept => kept.serves serves)
    (fun _ _ kept => kept.serves serves) e ⟨rfl, rfl⟩

theorem runEngine_begun (formed : ∀ e ∈ p.equations, e.WellFormed) (solution : p.Solution x)
    (inside : s.split.Holds x) (admits : s.Admits x) (serves : seat.engine.Serves p)
    (begun : seat.since ≠ none → seat.engine.Begun x none) (now : Duration) :
    Ends (· = seat.engine) (r.runEngine seat s now) (DepthFirst.Begun x) fun _ _ => True := by
  unfold runEngine
  split
  · apply (DepthFirst.start_begins formed solution inside s.timeout _).here serves
    intro earlier found
    split at found
    · exact admits inside earlier found
    · cases found
  next since shape =>
    exact (DepthFirst.advance_begun _).here (begun (by rw [shape]; exact nofun))

/-- Every solution is still in the region of a subquery of the run that nobody resolved. -/
structure Guards (p : Query Extended) (x : Variable → ℚ) (start : List (Subquery Extended))
    (heard : List (Answer Extended)) (r : Run (DepthFirst Extended) Extended) : Prop where
  query : r.plan.division.query = p
  ledger : r.crew.Ledger start heard
  keeps : ∀ a ∈ heard, a.subquery.split.Holds x → a.reaction.Keeps x
  admits : ∀ s ∈ start ++ heard.flatMap (·.reaction.offspring), s.Admits x
  serves : ∀ (i : Nat) seat, r.seats[i]? = some seat → seat.engine.Serves p
  /-- An engine at work is at work on the subquery of its worker. -/
  begun : ∀ (i : Nat) seat w, r.seats[i]? = some seat → r.crew.workers[i]? = some w →
    seat.since ≠ none →
    ∃ s, w.duty = .decide s ∧ (s.split.Holds x → seat.engine.Begun x none)

namespace Guards

variable {start : List (Subquery Extended)} {heard : List (Answer Extended)} {i : Nat}
  {w : Worker Extended}

theorem came_up (guards : r.Guards p x start heard) (found : r.crew.workers[i]? = some w)
    (waits : w.duty = .decide s) : s ∈ start ++ heard.flatMap (·.reaction.offspring) := by
  refine guards.ledger.complete.mem_iff.mp (List.mem_append_left _ (List.mem_append_right _ ?_))
  refine List.mem_flatMap.mpr ⟨w, Array.mem_toList_iff.mpr (Array.mem_of_getElem? found), ?_⟩
  rw [waits]
  exact List.mem_singleton_self s

theorem act (guards : r.Guards p x start heard) (found : r.crew.workers[i]? = some w)
    (sits : r.seats[i]? = some seat) (free : w.duty.subject? = none) :
    ({ r with crew := r.crew.put i (w.act r.crew.shared) } : Run _ Extended).Guards p x start
      heard := by
  refine ⟨guards.query, guards.ledger.act found, guards.keeps, guards.admits, guards.serves, ?_⟩
  intro j other v sitting present busy
  rcases Crew.put_worker present with ⟨rfl, rfl⟩ | ⟨-, same⟩
  · obtain rfl := Option.some.inj (sits.symm.trans sitting)
    -- An engine at work belongs to a worker that waits for it, and this one acts.
    obtain ⟨s, waits, -⟩ := guards.begun i seat w sits found busy
    rw [waits] at free
    cases free
  · exact guards.begun j other v sitting same busy

theorem work (guards : r.Guards p x start heard) (found : r.crew.workers[i]? = some w)
    {engine : DepthFirst Extended} (serves : engine.Serves p) (waits : w.duty = .decide s)
    (begun : s.split.Holds x → engine.Begun x none) (since : Option Duration) :
    ({ r with seats := r.seats.setIfInBounds i ⟨engine, since⟩ } : Run _ Extended).Guards p x start
      heard := by
  refine ⟨guards.query, guards.ledger, guards.keeps, guards.admits, ?_, ?_⟩
  · intro j other sitting
    rcases setIfInBounds_found sitting with ⟨-, rfl⟩ | ⟨-, same⟩
    · exact serves
    · exact guards.serves j other same
  · intro j other v sitting present busy
    rcases setIfInBounds_found sitting with ⟨rfl, rfl⟩ | ⟨-, same⟩
    · obtain rfl := Option.some.inj (found.symm.trans present)
      exact ⟨s, waits, begun⟩
    · exact guards.begun j other v same present busy

theorem hear (guards : r.Guards p x start heard) (found : r.crew.workers[i]? = some w)
    {engine : DepthFirst Extended} (serves : engine.Serves p) (waits : w.duty = .decide s)
    {reaction : Reaction Extended} (keeps : s.split.Holds x → reaction.Keeps x)
    (admits : ∀ child ∈ reaction.offspring, child.Admits x) :
    ({ r with
      seats := r.seats.setIfInBounds i ⟨engine, none⟩
      crew := r.crew.put i (w.hear reaction, r.crew.shared) } : Run _ Extended).Guards p x start
      (heard ++ [⟨i, s, reaction⟩]) := by
  refine ⟨guards.query, guards.ledger.hear found waits reaction, ?_, ?_, ?_, ?_⟩
  · intro a member
    rcases List.mem_append.mp member with earlier | last
    · exact guards.keeps a earlier
    · obtain rfl := List.mem_singleton.mp last
      exact keeps
  · intro other member
    rw [List.flatMap_append, ← List.append_assoc] at member
    rcases List.mem_append.mp member with earlier | last
    · exact guards.admits other earlier
    · exact admits other (by simpa using last)
  · intro j other sitting
    rcases setIfInBounds_found sitting with ⟨-, rfl⟩ | ⟨-, same⟩
    · exact serves
    · exact guards.serves j other same
  · intro j other v sitting present busy
    rcases setIfInBounds_found sitting with ⟨rfl, rfl⟩ | ⟨apart, same⟩
    · exact absurd rfl busy
    · rcases Crew.put_worker present with ⟨equal, -⟩ | ⟨-, known⟩
      · exact absurd equal apart
      · exact guards.begun j other v same known busy

theorem runs (guards : r.Guards p x start heard) (formed : ∀ e ∈ p.equations, e.WellFormed)
    (solution : p.Solution x) (found : r.crew.workers[i]? = some w) (sits : r.seats[i]? = some seat)
    (waits : w.duty = .decide s) (now : Duration) :
    s.Admits x ∧ seat.engine.Serves p ∧ (s.split.Holds x →
      Ends (· = seat.engine) (r.runEngine seat s now) (DepthFirst.Begun x) fun _ _ => True) := by
  have admits := guards.admits s (guards.came_up found waits)
  have serves := guards.serves i seat sits
  refine ⟨admits, serves, fun inside => ?_⟩
  refine runEngine_begun formed solution inside admits serves (fun busy => ?_) now
  obtain ⟨other, duty, begun⟩ := guards.begun i seat w sits found busy
  obtain rfl := Duty.decide.inj (duty.symm.trans waits)
  exact begun inside

/-- No move of a run loses a solution. -/
theorem moves (guards : r.Guards p x start heard) (formed : ∀ e ∈ p.equations, e.WellFormed)
    (solution : p.Solution x) (moved : r.Moves next) : ∃ later, next.Guards p x start later := by
  have hold := guards.query.symm ▸ solution.relus
  cases moved with
  | manage => exact ⟨heard, guards.query, guards.ledger, guards.keeps, guards.admits, guards.serves,
      guards.begun⟩
  | cancel =>
    refine ⟨heard, guards.query, ?_, guards.keeps, guards.admits, guards.serves, guards.begun⟩
    simpa [Crew.answer?] using guards.ledger.step .cancel
  | act found sits free => exact ⟨heard, guards.act found sits free⟩
  | work found sits waits run =>
    obtain ⟨admits, serves, begins⟩ := guards.runs formed solution found sits waits _
    exact ⟨heard, guards.work found ((r.runEngine_serves _ _ _).ok serves run) waits
      (fun inside => (begins inside).ok rfl run) _⟩
  | answer found sits waits run =>
    obtain ⟨admits, serves, begins⟩ := guards.runs formed solution found sits waits _
    obtain ⟨keeps, children⟩ := WorkPlan.react_keeps hold admits
      (fun inside same => ((begins inside).ok rfl run).not_unsat (congrArg some same))
      fun inside => ((begins inside).ok rfl run).root
    exact ⟨_, guards.hear found ((r.runEngine_serves _ _ _).ok serves run) waits keeps children⟩
  | crash found sits waits run =>
    have serves := (r.runEngine_serves _ _ _).error (guards.serves _ _ sits) run
    exact ⟨_, guards.hear found serves waits (fun _ => trivial) (List.forall_mem_nil _)⟩

/-- A run whose workers left nothing unresolved has no first region with a solution in it. -/
theorem unsat (guards : r.Guards p x start heard) {reason : EndReason} {duration : Duration}
    {outcome : RunOutcome Extended} (concluded : r.conclude reason duration = .ok outcome)
    (verdict : outcome.verdict = .unsat) : ∀ s ∈ start, ¬ s.split.Holds x := by
  have decided := (conclude_eq_ok concluded).1
  rw [verdict] at decided
  obtain ⟨complete, settled⟩ := guards.ledger.unsat decided
  exact Crew.none_left complete settled guards.keeps

end Guards

theorem StartsWith.guards {map : Option (VariableMap Extended)} {start : List (Subquery Extended)}
    {engines : List (DepthFirst Extended)} (starts : StartsWith p map engines start r)
    (solution : p.Solution x) (serves : ∀ e ∈ engines, e.Serves p) :
    r.Guards p x start [] ∧ ∃ s ∈ start, s.split.Holds x := by
  obtain ⟨region, count, timeout, whole, divided⟩ := starts.divided
  have known : r.plan.division.query.Solution x := starts.query.symm ▸ solution
  obtain ⟨made, fresh⟩ := Division.subqueries_madeOf known.relus divided
  have inside := made.mp (Division.wholeRegion_holds known whole)
  simp only [List.mem_map, exists_exists_and_eq_and] at inside
  have seated : ∀ (i : Nat) seat, r.seats[i]? = some seat → ∃ e ∈ engines, seat = ⟨e, none⟩ := by
    intro i seat sits
    rw [starts.seats, List.getElem?_toArray, List.getElem?_map, Option.map_eq_some_iff] at sits
    obtain ⟨e, found, rfl⟩ := sits
    exact ⟨e, List.mem_of_getElem? found, rfl⟩
  have ledger : r.crew.Ledger start [] := by
    rw [starts.crew]
    exact .initial engines.length start
  have none : ∀ a ∈ ([] : List (Answer Extended)), a.subquery.split.Holds x → a.reaction.Keeps x := by
    simp
  refine ⟨⟨starts.query, ledger, none, ?_, ?_, ?_⟩, inside⟩
  · exact fun s member => Subquery.admits_of_fresh (fresh s (by simpa using member))
  · intro i seat sits
    obtain ⟨e, member, rfl⟩ := seated i seat sits
    exact serves e member
  · intro i seat w sits _ busy
    obtain ⟨e, -, rfl⟩ := seated i seat sits
    exact absurd rfl busy

/-- Engines that compare numbers as they are, and take only positive pivots. -/
def Exact (make : Nat → DepthFirst Extended) : Prop :=
  ∀ i, (make i).config.epsilon = 0 ∧ 0 < (make i).config.factor.pivotTolerance

theorem process_simplified {e base : DepthFirst Extended} {loaded : Bool}
    (run : DepthFirst.process q true e = .ok loaded base) :
    ∃ effort, e.config.effort = .ok effort ∧
      ((loaded = false ∧ Presolve.simplify q effort = .error .conflict) ∨
        ∃ simpler map, Presolve.simplify q effort = .ok (simpler, map) ∧
          DepthFirst.load simpler map e.reset = .ok loaded base) := by
  obtain ⟨_, _, reset, run⟩ := run_bind_eq_ok.mp run
  obtain ⟨-, rfl⟩ := EStateM.Result.ok.inj reset
  obtain ⟨_, _, read, run⟩ := run_bind_eq_ok.mp run
  obtain ⟨rfl, rfl⟩ := EStateM.Result.ok.inj read
  obtain ⟨effort, between, found, run⟩ := run_bind_eq_ok.mp run
  have reads : Ends (· = e.reset) (DepthFirst.ofFault e.reset.config.effort) _ fun _ _ => True :=
    DepthFirst.ofFault_ends fun _ _ _ => trivial
  obtain ⟨rfl, made⟩ := reads.ok rfl found
  refine ⟨effort, made, ?_⟩
  cases simplified : Presolve.simplify q effort with
  | ok result =>
    rw [simplified] at run
    exact .inr ⟨result.1, result.2, rfl, run⟩
  | error cause =>
    rw [simplified] at run
    cases cause with
    | conflict =>
      obtain ⟨_, _, marked, run⟩ := run_bind_eq_ok.mp run
      exact .inl ⟨(EStateM.Result.ok.inj run).1.symm, rfl⟩
    | factorization | fault => cases run

theorem process_solved (formed : ∀ e ∈ q.equations, e.WellFormed) (solution : q.Solution x)
    {e base : DepthFirst Extended} (precise : e.config.epsilon = 0)
    (positive : 0 < e.config.factor.pivotTolerance) {loaded : Bool}
    (run : DepthFirst.process q true e = .ok loaded base) :
    loaded = true ∧ ∀ p, SearchEngine.query? base = some p →
      (∀ e ∈ p.equations, e.WellFormed) ∧ ∃ y, p.Solution y := by
  obtain ⟨effort, made, ⟨-, conflict⟩ | ⟨simpler, map, simplified, run⟩⟩ := process_simplified run
  all_goals
    have exactly := (congrArg (·.epsilon) (SearchConfig.effort_valid made).1).trans precise
  · exact absurd conflict (Presolve.simplify_ne_conflict exactly formed solution)
  · obtain ⟨d, tidy, solved, rebuilt, rfl⟩ :=
      Presolve.simplify_solved exactly formed solution simplified
    have solution := rebuilt.solution tidy solved solution.relus
      fun v i found => congrArg x (VariableMap.survivors_getD found)
    have simple := Presolve.simplify_formed formed simplified
    have ready : e.reset.config.epsilon = 0 ∧ 0 < e.reset.config.factor.pivotTolerance :=
      ⟨precise, positive⟩
    have loads := (DepthFirst.load_loads simple d.map).ok ready run
    cases loaded with
    | false => exact absurd solution (loads _)
    | true =>
      refine ⟨rfl, fun p found => ?_⟩
      obtain ⟨l, shape, query, -⟩ := loads.loaded
      change base.loaded.map _ = some p at found
      rw [shape] at found
      obtain rfl : simpler = p := query.symm.trans (Option.some.inj found)
      exact ⟨simple, _, solution⟩

theorem process_serves (formed : ∀ e ∈ p.equations, e.WellFormed) {e last : DepthFirst Extended}
    (precise : e.config.epsilon = 0) (positive : 0 < e.config.factor.pivotTolerance) {loaded : Bool}
    (run : DepthFirst.process p false e = .ok loaded last) :
    if loaded then last.Serves p else ∀ x, ¬ p.Solution x := by
  have ready : e.reset.config.epsilon = 0 ∧ 0 < e.reset.config.factor.pivotTolerance :=
    ⟨precise, positive⟩
  exact (DepthFirst.load_loads formed _).ok ready run

theorem prepare_unsat {make : Nat → DepthFirst Extended} (exact : Exact make)
    (formed : ∀ e ∈ q.equations, e.WellFormed) {config : RunConfig Extended} {quitRequested : Bool}
    {made : List (DepthFirst Extended)}
    (run : prepare config make quitRequested q = .ok (made, .decided .unsat)) :
    ¬ q.Solution x := by
  intro solution
  obtain failed | ⟨-, ⟨base, refused⟩ | ⟨base, p, processed, found, i, seed, heuristic, last, refused⟩⟩ :=
    prepare_decided run
  · cases failed
  · cases (process_solved formed solution (exact 0).1 (exact 0).2 refused).1
  · obtain ⟨simple, y, solution⟩ :=
      (process_solved formed solution (exact 0).1 (exact 0).2 processed).2 p found
    exact process_serves (e := (make i).diversify seed heuristic) simple (exact i).1 (exact i).2
      refused y solution

/-- A run that ends unsatisfied, whatever the order and the times of its moves, is about a query
without a solution; and so is one that goes round by round. -/
theorem unsat_run_sound {make : Nat → DepthFirst Extended} (exact : Exact make)
    (formed : ∀ e ∈ q.equations, e.WellFormed) (config : RunConfig Extended) :
    (∀ outcome, EndsWith config make q outcome → outcome.verdict = .unsat → ∀ x, ¬ q.Solution x) ∧
      ∀ quitRequested clock fuel outcome engines,
        solve config make quitRequested clock fuel q = .ok (outcome, engines) →
        outcome.verdict = .unsat → ∀ x, ¬ q.Solution x := by
  have each : ∀ outcome, EndsWith config make q outcome → outcome.verdict = .unsat →
      ∀ x, ¬ q.Solution x := by
    intro outcome ends verdict x solution
    cases ends with
    | early prepared duration =>
      obtain rfl := verdict
      exact prepare_unsat exact formed prepared solution
    | late prepared reached ended concluded =>
      obtain ⟨base, p, engines, start, processed, found, loaded, starts⟩ := prepare_ready prepared
      obtain ⟨simple, y, solution⟩ :=
        (process_solved formed solution (exact 0).1 (exact 0).2 processed).2 p found
      have serves : ∀ e ∈ engines, e.Serves p := by
        intro e member
        obtain ⟨i, seed, heuristic, taken⟩ := loaded e member
        exact process_serves (e := (make i).diversify seed heuristic) simple (exact i).1
          (exact i).2 taken
      obtain ⟨guards, s, member, inside⟩ := starts.guards solution serves
      obtain ⟨heard, guards⟩ := reached.invariant (fun r => ∃ heard, r.Guards p y start heard)
        ⟨[], guards⟩ fun ⟨_, guards⟩ moved => guards.moves simple solution moved
      exact guards.unsat concluded verdict s member inside
  exact ⟨each, fun _ _ _ _ _ run => each _ (solve_endsWith run)⟩

/-- Three ReLUs in a row carry the bounds of the first input to the last output only when they are
propagated a second time, which two workers do for one half of the input interval each. -/
theorem unsat_run_sound_two_workers :
    let settings : SearchConfig Extended := ⟨0, .denseLu, ⟨1, 1⟩, 1, 0, 0, 0, 0⟩
    let config : RunConfig Extended :=
      { (RunConfig.default : RunConfig Extended) with
        workers := 2, initialDivides := 1, engine := settings }
    let chain : Query Extended := { Query.unconstrained 4 with
      bounds := #v[⟨-1, 1⟩, .all, .all, ⟨2, 3⟩]
      relus := [⟨1, 2⟩, ⟨0, 1⟩, ⟨2, 3⟩]
      relus_known := by decide
      inputs := [0]
      inputs_known := by decide }
    let run := solve config (fun _ => DepthFirst.new settings) false (fun _ => .zero) 14 chain
    run.toOption.map (fun ended => (ended.1.verdict, ended.1.statistics.solved)) =
      some (.unsat, 2) ∧ ∀ x, ¬ chain.Solution x := by
  intro settings config chain run
  have ends : run.toOption.map (fun ended => (ended.1.verdict, ended.1.statistics.solved)) =
      some (.unsat, 2) := by decide +kernel
  refine ⟨ends, ?_⟩
  have positive : 0 < settings.factor.pivotTolerance := by decide +kernel
  have exact : Exact fun _ => DepthFirst.new settings := fun _ => ⟨rfl, positive⟩
  obtain ⟨ended, finished, same⟩ := toOption_map_eq_some ends
  have formed : ∀ e ∈ chain.equations, e.WellFormed := List.forall_mem_nil _
  exact (unsat_run_sound exact formed config).2 _ _ _ _ _ finished (Prod.mk.inj same).1

end Run

end ReluSolver
