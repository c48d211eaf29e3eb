import ReluSolver.Proofs.EngineCertificates
import ReluSolver.Proofs.PresolveTranslation
import ReluSolver.Proofs.RunSoundness

/-! A run that ends satisfied has a solution of its query. The engine of every worker
that knows of a solution still reports one, whatever happened in the meantime. -/

namespace ReluSolver

open Extended

variable {p q : Query Extended} {epsilon : Extended}

/-- The outcome lists all variables of a query in order, with values that pass its test. -/
def RunOutcome.Certifies (q : Query Extended) (epsilon : Extended) (o : RunOutcome Extended) : Prop :=
  ∃ entries, o.solution = some entries ∧ entries.map (·.1) = List.range q.size ∧
    q.isSatisfiedBy (entries.map (·.2)).toArray ⟨epsilon⟩ = .ok true

theorem numbered {β : Type} (values : List β) :
    (values.mapIdx fun x value => (x, value)).map (·.1) = List.range values.length ∧
      (values.mapIdx fun x value => (x, value)).map (·.2) = values := by
  constructor <;> exact List.ext_getElem (by simp) fun _ _ _ => by simp

theorem WorkPlan.react_found {plan : WorkPlan Extended} {s : Subquery Extended} {code : ExitCode}
    {state : Option (TreeState Extended)} (found : plan.react s code state = .found) :
    code = .sat := by
  cases code with
  | sat => rfl
  | timeout =>
    unfold react prolong at found
    dsimp only at found
    repeat' split at found
    all_goals cases found
  | unsat | quitRequested | error | notDone => cases found

namespace Run

variable {r next : Run (DepthFirst Extended) Extended} {map : VariableMap Extended}

theorem runEngine_searches (r : Run (DepthFirst Extended) Extended)
    (seat : Seat (DepthFirst Extended)) (s : Subquery Extended) (now : Duration) :
    Preserves (DepthFirst.Searches p epsilon) (r.runEngine seat s now) := fun e searches =>
  (r.runEngine_keeps seat s now e).weaken (fun _ kept => kept)
    (fun _ _ kept => kept.searches searches) (fun _ _ kept => kept.searches searches) e ⟨rfl, rfl⟩

end Run

/-- A worker at its seat. Its engine is at work only while the worker waits, and what the worker
knows of a solution its engine can tell. -/
structure Seat.Vouches (p : Query Extended) (epsilon : Extended) (seat : Seat (DepthFirst Extended))
    (w : Worker Extended) : Prop where
  searches : seat.engine.Searches p epsilon
  underway : seat.since ≠ none → w.duty.subject? ≠ none ∧ seat.engine.Underway p epsilon
  certified : w.tally.foundSat = true →
    (w.duty = .report ∨ w.duty = .stopped) ∧ seat.engine.Certified p epsilon

namespace Seat.Vouches

variable {seat : Seat (DepthFirst Extended)} {w : Worker Extended} {s : Subquery Extended}

theorem act (vouches : seat.Vouches p epsilon w) (free : w.duty.subject? = none)
    (shared : Shared Extended) : seat.Vouches p epsilon (w.act shared).1 := by
  refine ⟨vouches.searches, fun busy => absurd free (vouches.underway busy).1, fun found => ?_⟩
  obtain ⟨done, certified⟩ := vouches.certified (Worker.act_tally w shared ▸ found)
  refine ⟨.inr ?_, certified⟩
  rcases done with reports | stopped
  · rw [Worker.act, reports]
  · rw [Worker.act, stopped]
    exact stopped

theorem not_foundSat (vouches : seat.Vouches p epsilon w) (waits : w.duty = .decide s) :
    w.tally.foundSat ≠ true := by
  intro found
  rcases (vouches.certified found).1 with reports | stopped
  · cases waits.symm.trans reports
  · cases waits.symm.trans stopped

theorem work (vouches : seat.Vouches p epsilon w) (waits : w.duty = .decide s)
    {engine : DepthFirst Extended} (searches : engine.Searches p epsilon)
    (underway : engine.Underway p epsilon) (since : Option Duration) :
    Seat.Vouches p epsilon ⟨engine, since⟩ w := by
  refine ⟨searches, fun _ => ⟨by rw [waits]; exact nofun, underway⟩, fun found => ?_⟩
  exact absurd found (vouches.not_foundSat waits)

theorem hear (vouches : seat.Vouches p epsilon w) (waits : w.duty = .decide s)
    {engine : DepthFirst Extended} (searches : engine.Searches p epsilon)
    {reaction : Reaction Extended} (certified : reaction = .found → engine.Certified p epsilon) :
    Seat.Vouches p epsilon ⟨engine, none⟩ (w.hear reaction) := by
  refine ⟨searches, fun busy => absurd rfl busy, fun found => ?_⟩
  rcases Worker.hear_foundSat waits reaction found with before | ⟨now, reports⟩
  · exact absurd before (vouches.not_foundSat waits)
  · exact ⟨.inl reports, certified now⟩

end Seat.Vouches

namespace Run

variable {r next : Run (DepthFirst Extended) Extended} {map : VariableMap Extended}
  {seat : Seat (DepthFirst Extended)} {w : Worker Extended} {s : Subquery Extended}

theorem runEngine_decides (vouches : seat.Vouches p epsilon w) (now : Duration) :
    Ends (· = seat.engine) (r.runEngine seat s now) (DepthFirst.Decides p epsilon)
      fun _ _ => True := by
  unfold runEngine
  split
  · exact (DepthFirst.start_decides _ _ _).here vouches.searches
  next since shape =>
    exact (DepthFirst.advance_decides _).here (vouches.underway (by rw [shape]; exact nofun)).2

/-- Every worker has a seat, and every solution that is known of can be told. -/
structure Vouches (p : Query Extended) (epsilon : Extended) (map : VariableMap Extended)
    (r : Run (DepthFirst Extended) Extended) : Prop where
  map : r.map = some map
  seats : r.seats.size = r.crew.workers.size
  each : ∀ (i : Nat) seat w, r.seats[i]? = some seat → r.crew.workers[i]? = some w →
    seat.Vouches p epsilon w

namespace Vouches

theorem put (vouches : r.Vouches p epsilon map) (i : Nat) {changed : Seat (DepthFirst Extended)}
    (step : Worker Extended × Shared Extended) (here : changed.Vouches p epsilon step.1) :
    ({ r with
      seats := r.seats.setIfInBounds i changed
      crew := r.crew.put i step } : Run _ Extended).Vouches p epsilon map := by
  refine ⟨vouches.map, by simpa using vouches.seats, fun j seat w sits found => ?_⟩
  rcases setIfInBounds_found sits with ⟨rfl, rfl⟩ | ⟨apart, same⟩
  · rcases Crew.put_worker found with ⟨-, rfl⟩ | ⟨other, -⟩
    · exact here
    · exact absurd rfl other
  · rcases Crew.put_worker found with ⟨equal, -⟩ | ⟨-, known⟩
    · exact absurd equal apart
    · exact vouches.each j seat w same known

/-- No move of a run makes a known solution untold. -/
theorem moves (vouches : r.Vouches p epsilon map) (moved : r.Moves next) :
    next.Vouches p epsilon map := by
  cases moved with
  | manage | cancel => exact ⟨vouches.map, vouches.seats, vouches.each⟩
  | @act i w seat found sits free =>
    have put := vouches.put i _ ((vouches.each i seat w sits found).act free r.crew.shared)
    rwa [setIfInBounds_same sits] at put
  | @work i w seat s now engine found sits waits run =>
    have here := vouches.each i seat w sits found
    have searches := (r.runEngine_searches seat s now).ok here.searches run
    have underway := ((runEngine_decides here now).ok rfl run).underway rfl
    have put := vouches.put i (w, r.crew.shared)
      (here.work waits searches underway (some (seat.since.getD now)))
    rwa [Crew.put_same found] at put
  | @answer i w seat s now engine code found sits waits run =>
    have here := vouches.each i seat w sits found
    have searches := (r.runEngine_searches seat s now).ok here.searches run
    have decides := (runEngine_decides here now).ok rfl run
    refine vouches.put i _ (here.hear waits searches fun satisfied => ?_)
    exact decides.certified (congrArg some (WorkPlan.react_found satisfied))
  | @crash i w seat s now engine cause found sits waits run =>
    have here := vouches.each i seat w sits found
    have searches := (r.runEngine_searches seat s now).error here.searches run
    exact vouches.put i _ (here.hear waits searches fun same : Reaction.crashed = .found => nomatch same)

theorem winner (vouches : r.Vouches p epsilon map) {timeoutReached quitRequested : Bool}
    (verdict : Verdict.decide (r.crew.evidence timeoutReached quitRequested) = .ok .sat) :
    ∃ values, p.Certificate epsilon values ∧
      r.solution? = (map.mapSolution? values).map fun mapped =>
        mapped.toList.mapIdx fun x value => (x, value) := by
  obtain ⟨tally, member, found⟩ := List.any_eq_true.mp (Crew.of_decide_sat verdict)
  obtain ⟨w, present, reported⟩ := List.mem_filterMap.mp member
  obtain ⟨i, known⟩ := List.mem_iff_getElem?.mp present
  rw [Array.getElem?_toList] at known
  have seated : i < r.seats.size := vouches.seats ▸ (Array.getElem?_eq_some_iff.mp known).1
  let knows (i : Nat) : Bool := (r.crew.workers[i]?.bind (·.report?)).any (·.foundSat)
  obtain ⟨winner, chosen⟩ : ∃ winner, (List.range r.seats.size).find? knows = some winner :=
    Option.isSome_iff_exists.mp (List.find?_isSome.mpr
      ⟨i, List.mem_range.mpr seated, by simp [knows, known, reported, found]⟩)
  have inside := List.mem_range.mp (List.mem_of_find?_eq_some chosen)
  have holds : knows winner = true := List.find?_some chosen
  obtain ⟨told, reports, sure⟩ := (Option.any_eq_true _ _).mp holds
  obtain ⟨v, here, same⟩ := Option.bind_eq_some_iff.mp reports
  have sits : r.seats[winner]? = some r.seats[winner] := Array.getElem?_eq_getElem inside
  obtain ⟨-, values, tells, certificate⟩ :=
    (vouches.each winner _ v sits here).certified (Crew.tally_of_report same ▸ sure)
  refine ⟨values, certificate, ?_⟩
  change (((List.range r.seats.size).find? knows).bind fun winner =>
    r.seats[winner]?.bind fun seat => seat.engine.solution?.bind fun values => _) = _
  rw [chosen, Option.bind_some, sits, Option.bind_some, tells, Option.bind_some, vouches.map]
  dsimp only
  cases map.mapSolution? values <;> rfl

/-- What a satisfied run lists is a solution of the query before it was simplified. -/
theorem certifies (vouches : r.Vouches p epsilon map) (formed : q.WellFormed)
    {settings : SearchConfig Extended} {effort : Effort Extended} (made : settings.effort = .ok effort)
    (simplified : Presolve.simplify q effort = .ok (p, map)) (same : settings.epsilon = epsilon)
    {reason : EndReason} {duration : Duration} {outcome : RunOutcome Extended}
    (concluded : r.conclude reason duration = .ok outcome) (verdict : outcome.verdict = .sat) :
    outcome.Certifies q epsilon := by
  obtain ⟨decided, solution⟩ := conclude_eq_ok concluded
  rw [verdict] at decided
  rw [verdict, if_pos rfl] at solution
  obtain ⟨values, certificate, reported⟩ := vouches.winner decided
  obtain ⟨tolerance, e, rational, positive⟩ := SearchConfig.effort_valid made
  rw [same] at tolerance rational
  obtain ⟨mapped, translated, passed⟩ := Presolve.simplify_translates
    (by rw [tolerance]; exact rational) positive formed.regular simplified
    (tolerance ▸ certificate.satisfied) certificate.rational
  rw [tolerance] at passed
  have size := (Query.isSatisfiedBy_eq_true.mp passed).1
  obtain ⟨names, numbers⟩ := numbered mapped.toList
  -- The entries are numbered from zero on, so they name every variable of the query once.
  refine ⟨_, by rw [solution, reported, translated]; rfl, ?_, ?_⟩
  · rw [names, Array.length_toList, size]
  · rw [numbers]
    exact passed

end Vouches

theorem StartsWith.vouches {engines : List (DepthFirst Extended)} {start : List (Subquery Extended)}
    (starts : StartsWith p (some map) engines start r)
    (searches : ∀ e ∈ engines, e.Searches p epsilon) : r.Vouches p epsilon map := by
  refine ⟨starts.map, by simp [starts.seats, starts.crew, Crew.start], fun i seat w sits found => ?_⟩
  rw [starts.seats, List.getElem?_toArray, List.getElem?_map, Option.map_eq_some_iff] at sits
  obtain ⟨e, among, rfl⟩ := sits
  rw [starts.crew, Crew.start, Array.getElem?_replicate] at found
  split at found
  · obtain rfl := Option.some.inj found
    exact ⟨searches e (List.mem_of_getElem? among), fun busy => absurd rfl busy,
      fun found => absurd found Bool.false_ne_true⟩
  · cases found

theorem process_searches {e last : DepthFirst Extended} (configured : e.config.epsilon = epsilon)
    (run : DepthFirst.process p false e = .ok true last) : last.Searches p epsilon := by
  have ready : e.reset.config.epsilon = epsilon := configured
  exact ((DepthFirst.load_searches _).ok ready run rfl).1

theorem process_simplifies {e base : DepthFirst Extended} (configured : e.config.epsilon = epsilon)
    (run : DepthFirst.process q true e = .ok true base) :
    ∃ effort simpler map, e.config.effort = .ok effort ∧
      Presolve.simplify q effort = .ok (simpler, map) ∧
      SearchEngine.query? base = some simpler ∧ SearchEngine.map? base = some map := by
  obtain ⟨effort, made, ⟨refused, -⟩ | ⟨simpler, map, simplified, run⟩⟩ := process_simplified run
  · cases refused
  · have ready : e.reset.config.epsilon = epsilon := configured
    obtain ⟨searches, handed⟩ := (DepthFirst.load_searches map).ok ready run rfl
    obtain ⟨l, shape, rfl, -⟩ := searches.loaded
    exact ⟨effort, l.query, map, made, simplified, congrArg (Option.map _) shape, handed⟩

/-- A run that ends satisfied, whatever the order and the times of its moves, lists the variables of
the query with values that pass its test; and so does one that goes round by round. -/
theorem sat_run_certified {make : Nat → DepthFirst Extended}
    (same : ∀ i, (make i).config.epsilon = epsilon) (formed : q.WellFormed)
    (config : RunConfig Extended) :
    (∀ outcome, EndsWith config make q outcome → outcome.verdict = .sat →
        outcome.Certifies q epsilon) ∧
      ∀ quitRequested clock fuel outcome engines,
        solve config make quitRequested clock fuel q = .ok (outcome, engines) →
        outcome.verdict = .sat → outcome.Certifies q epsilon := by
  have each : ∀ outcome, EndsWith config make q outcome → outcome.verdict = .sat →
      outcome.Certifies q epsilon := by
    intro outcome ends verdict
    cases ends with
    | early prepared duration =>
      obtain rfl := verdict
      obtain failed | ⟨refused, -⟩ := prepare_decided prepared
      · cases failed
      · cases refused
    | late prepared reached ended concluded =>
      obtain ⟨base, p, engines, start, processed, found, loaded, starts⟩ := prepare_ready prepared
      obtain ⟨effort, simpler, map, made, simplified, query, handed⟩ :=
        process_simplifies (same 0) processed
      obtain rfl := Option.some.inj (query.symm.trans found)
      have searches : ∀ e ∈ engines, e.Searches simpler epsilon := by
        intro e member
        obtain ⟨i, seed, heuristic, taken⟩ := loaded e member
        exact process_searches (e := (make i).diversify seed heuristic) (same i) taken
      have vouches := reached.invariant (·.Vouches simpler epsilon map)
        ((handed ▸ starts).vouches searches) fun vouches moved => vouches.moves moved
      exact vouches.certifies formed made simplified (same 0) concluded verdict
  exact ⟨each, fun _ _ _ _ _ run => each _ (solve_endsWith run)⟩

/-- Two workers solve a query of which one variable is fixed and another one merged away. -/
theorem sat_run_certified_two_workers :
    let settings : SearchConfig Extended := ⟨finite (1 / 1000), .denseLu, ⟨1 / 1000, 1⟩, 4, 0, 2, 2, 2⟩
    let config : RunConfig Extended :=
      { (RunConfig.default : RunConfig Extended) with
        workers := 2, initialDivides := 1, engine := settings }
    let reducible : Query Extended := { Query.unconstrained 5 with
      bounds := #v[⟨-1, 1⟩, ⟨0, 3⟩, .all, ⟨1, 1⟩, .all]
      equations := [⟨[⟨1, 2⟩, ⟨-1, 4⟩], 0⟩, ⟨[⟨1, 1⟩, ⟨-1, 4⟩, ⟨1, 3⟩], 1⟩]
      equations_known := by decide
      relus := [⟨0, 1⟩]
      relus_known := by decide
      inputs := [0]
      inputs_known := by decide }
    let run := solve config (fun _ => DepthFirst.new settings) false (fun _ => .zero) 14 reducible
    ∃ outcome engines, run = .ok (outcome, engines) ∧ outcome.verdict = .sat ∧
      outcome.Certifies reducible (finite (1 / 1000)) := by
  intro settings config reducible run
  have ends : run.toOption.map (fun ended => ended.1.verdict) = some .sat := by decide +kernel
  have formed : reducible.WellFormed := by decide +kernel
  have same : ∀ i : Nat, ((fun _ => DepthFirst.new settings) i).config.epsilon = settings.epsilon :=
    fun _ => rfl
  obtain ⟨⟨outcome, engines⟩, finished, verdict⟩ := toOption_map_eq_some ends
  have certifies := (sat_run_certified same formed config).2 _ _ _ _ _ finished verdict
  exact ⟨outcome, engines, finished, verdict, certifies⟩

end Run

end ReluSolver
