import ReluSolver.Proofs.CrewSafety
import ReluSolver.Run.Manager

/-! The ways a run can go. Moves of the manager and of the workers come in any order
and at any times, and somebody may ask the run to quit between two of them. -/

namespace ReluSolver

variable {ε α : Type}

namespace Run

theorem loadEngines_eq_ok [SearchEngine ε α] {make : Nat → ε} {p : Query α} {index count : Nat}
    {engines : List ε} {loading : Loading}
    (run : loadEngines make p index count = .ok (engines, loading)) :
    match loading with
    | .done => ∀ e ∈ engines, ∃ i seed heuristic,
        SearchEngine.process p false (SearchEngine.diversify seed heuristic (make i)) = .ok true e
    | .stopped verdict => verdict = .error ∨ verdict = .unsat ∧ ∃ i seed heuristic last,
        SearchEngine.process p false (SearchEngine.diversify seed heuristic (make i)) =
          .ok false last := by
  induction count generalizing index engines with
  | zero =>
    obtain ⟨rfl, rfl⟩ := Prod.mk.inj (Except.ok.inj run)
    exact nofun
  | succ count ih =>
    unfold loadEngines at run
    dsimp only at run
    split at run
    next engine processed =>
      obtain ⟨⟨others, loading⟩, later, run⟩ := bind_eq_ok.mp run
      obtain ⟨rfl, rfl⟩ := Prod.mk.inj (Except.ok.inj run)
      cases loading with
      | stopped => exact ih later
      | done =>
        intro e member
        rcases List.mem_cons.mp member with rfl | other
        · exact ⟨index + 1, _, _, processed⟩
        · exact ih later e other
    next last refused =>
      obtain ⟨-, rfl⟩ := Prod.mk.inj (Except.ok.inj run)
      exact .inr ⟨rfl, index + 1, _, _, last, refused⟩
    · obtain ⟨-, rfl⟩ := Prod.mk.inj (Except.ok.inj run)
      exact .inl rfl
    · cases run

variable [Scalar α]

structure StartsWith (p : Query α) (map : Option (VariableMap α)) (engines : List ε)
    (start : List (Subquery α)) (r : Run ε α) : Prop where
  query : r.plan.division.query = p
  map : r.map = map
  crew : r.crew = Crew.start engines.length start
  seats : r.seats = (engines.map (⟨·, none⟩)).toArray
  divided : ∃ region count timeout, r.plan.division.wholeRegion = .ok region ∧
    r.plan.division.subqueries count "" 0 region timeout = .ok start

theorem begin_eq_ok {config : RunConfig α} {q p : Query α} {map : Option (VariableMap α)}
    {engines : List ε} {quitRequested : Bool} {r : Run ε α}
    (run : begin config q p map engines quitRequested = .ok r) :
    ∃ start, StartsWith p map engines start r := by
  obtain ⟨effort, -, run⟩ := bind_eq_ok.mp run
  obtain ⟨region, whole, run⟩ := bind_eq_ok.mp run
  obtain ⟨start, divided, run⟩ := bind_eq_ok.mp run
  obtain rfl := Except.ok.inj run
  exact ⟨start, rfl, rfl, rfl, rfl, region, _, _, whole, divided⟩

variable [SearchEngine ε α]

theorem prepare_cases {config : RunConfig α} {make : Nat → ε} {quitRequested : Bool} {q : Query α}
    {made : List ε} {preparation : Preparation ε α}
    (run : prepare config make quitRequested q = .ok (made, preparation)) :
    preparation = .decided .error ∨
    (∃ base, SearchEngine.process q true (make 0) = .ok false base ∧ preparation = .decided .unsat) ∨
    ∃ base p engines loading, SearchEngine.process q true (make 0) = .ok true base ∧
      SearchEngine.query? base = some p ∧
      loadEngines make p 0 config.workers = .ok (engines, loading) ∧
      match loading with
      | .stopped verdict => preparation = .decided verdict
      | .done => ∃ r, begin config q p (SearchEngine.map? base) engines quitRequested = .ok r ∧
          preparation = .ready r := by
  unfold prepare at run
  split at run
  · cases run
  · exact .inl (Prod.mk.inj (Except.ok.inj run)).2.symm
  next base processed =>
    exact .inr (.inl ⟨base, processed, (Prod.mk.inj (Except.ok.inj run)).2.symm⟩)
  next base processed =>
    split at run
    next p found =>
      split at run
      · exact .inl (Prod.mk.inj (Except.ok.inj run)).2.symm
      · obtain ⟨⟨engines, loading⟩, loaded, run⟩ := bind_eq_ok.mp run
        refine .inr (.inr ⟨base, p, engines, loading, processed, found, loaded, ?_⟩)
        cases loading with
        | stopped verdict => exact (Prod.mk.inj (Except.ok.inj run)).2.symm
        | done =>
          obtain ⟨r, begun, run⟩ := bind_eq_ok.mp run
          exact ⟨r, begun, (Prod.mk.inj (Except.ok.inj run)).2.symm⟩
    · exact .inl (Prod.mk.inj (Except.ok.inj run)).2.symm

theorem prepare_ready {config : RunConfig α} {make : Nat → ε} {quitRequested : Bool} {q : Query α}
    {made : List ε} {r : Run ε α} (run : prepare config make quitRequested q = .ok (made, .ready r)) :
    ∃ base p engines start, SearchEngine.process q true (make 0) = .ok true base ∧
      SearchEngine.query? base = some p ∧
      (∀ e ∈ engines, ∃ i seed heuristic, SearchEngine.process p false
        (SearchEngine.diversify seed heuristic (make i)) = .ok true e) ∧
      StartsWith p (SearchEngine.map? base) engines start r := by
  obtain failed | ⟨-, -, refused⟩ | ⟨base, p, engines, loading, processed, found, loaded, rest⟩ :=
    prepare_cases run
  · cases failed
  · cases refused
  · cases loading with
    | stopped => cases rest
    | done =>
      obtain ⟨other, begun, same⟩ := rest
      obtain rfl := Preparation.ready.inj same
      obtain ⟨start, starts⟩ := begin_eq_ok begun
      exact ⟨base, p, engines, start, processed, found, loadEngines_eq_ok loaded, starts⟩

theorem prepare_decided {config : RunConfig α} {make : Nat → ε} {quitRequested : Bool} {q : Query α}
    {made : List ε} {verdict : Verdict}
    (run : prepare config make quitRequested q = .ok (made, .decided verdict)) :
    verdict = .error ∨ verdict = .unsat ∧
      ((∃ base, SearchEngine.process q true (make 0) = .ok false base) ∨
        ∃ base p, SearchEngine.process q true (make 0) = .ok true base ∧
          SearchEngine.query? base = some p ∧ ∃ i seed heuristic last, SearchEngine.process p false
            (SearchEngine.diversify seed heuristic (make i)) = .ok false last) := by
  obtain failed | ⟨base, refused, same⟩ | ⟨base, p, engines, loading, processed, found, loaded, rest⟩ :=
    prepare_cases run
  · exact .inl (Preparation.decided.inj failed)
  · exact .inr ⟨Preparation.decided.inj same, .inl ⟨base, refused⟩⟩
  · cases loading with
    | done =>
      obtain ⟨r, -, same⟩ := rest
      cases same
    | stopped other =>
      obtain rfl := Preparation.decided.inj rest
      obtain failed | ⟨same, i, seed, heuristic, last, refused⟩ := loadEngines_eq_ok loaded
      · exact .inl failed
      · exact .inr ⟨same, .inr ⟨base, p, processed, found, i, seed, heuristic, last, refused⟩⟩

/-- What a move, or a request to quit, makes of a run. -/
inductive Moves (r : Run ε α) : Run ε α → Prop where
  | manage (manager : ManagerDuty) (quitRequested enginesQuit : Bool) :
      Moves r { r with
        manager := manager, quitRequested := quitRequested, enginesQuit := enginesQuit }
  | cancel (manager : ManagerDuty) :
      Moves r { r with manager := manager, crew := r.crew.step .cancel }
  | act {i : Nat} {w : Worker α} {seat : Seat ε} (found : r.crew.workers[i]? = some w)
      (sits : r.seats[i]? = some seat) (free : w.duty.subject? = none) :
      Moves r { r with crew := r.crew.put i (w.act r.crew.shared) }
  | work {i : Nat} {w : Worker α} {seat : Seat ε} {subquery : Subquery α} {now : Duration} {engine : ε}
      (found : r.crew.workers[i]? = some w) (sits : r.seats[i]? = some seat)
      (waits : w.duty = .decide subquery)
      (run : r.runEngine seat subquery now seat.engine = .ok none engine) :
      Moves r { r with seats := r.seats.setIfInBounds i ⟨engine, some (seat.since.getD now)⟩ }
  | answer {i : Nat} {w : Worker α} {seat : Seat ε} {subquery : Subquery α} {now : Duration}
      {engine : ε} {code : ExitCode} (found : r.crew.workers[i]? = some w)
      (sits : r.seats[i]? = some seat) (waits : w.duty = .decide subquery)
      (run : r.runEngine seat subquery now seat.engine = .ok (some code) engine) :
      Moves r { r with
        seats := r.seats.setIfInBounds i ⟨engine, none⟩
        crew := r.crew.put i
          (w.hear (r.plan.react subquery code (SearchEngine.treeState? engine)), r.crew.shared) }
  | crash {i : Nat} {w : Worker α} {seat : Seat ε} {subquery : Subquery α} {now : Duration}
      {engine : ε} {cause : Fault} (found : r.crew.workers[i]? = some w)
      (sits : r.seats[i]? = some seat) (waits : w.duty = .decide subquery)
      (run : r.runEngine seat subquery now seat.engine = .error cause engine) :
      Moves r { r with
        seats := r.seats.setIfInBounds i ⟨engine, none⟩
        crew := r.crew.put i (w.hear .crashed, r.crew.shared) }

theorem moves_idle (r : Run ε α) : r.Moves r := .manage r.manager r.quitRequested r.enginesQuit

theorem moveManager_moves (r : Run ε α) (now : Duration) : r.Moves (r.moveManager now) := by
  unfold moveManager
  split
  · split
    · exact r.moves_idle
    next reason _ => exact .manage (.cancel reason) r.quitRequested r.enginesQuit
  next reason _ => exact .cancel (.quit reason)
  next reason _ => exact .manage (.join reason) r.quitRequested true
  · exact r.moves_idle

theorem moveEngine_moves {r : Run ε α} {i : Nat} {w : Worker α} {seat : Seat ε}
    {subquery : Subquery α} (found : r.crew.workers[i]? = some w) (sits : r.seats[i]? = some seat)
    (waits : w.duty = .decide subquery) (now : Duration) :
    r.Moves (r.moveEngine i seat subquery now) := by
  unfold moveEngine
  split
  next run => exact .work found sits waits run
  next code engine run =>
    dsimp only
    rw [Crew.step_hear found]
    exact .answer found sits waits run
  next run =>
    rw [Crew.step_hear found]
    exact .crash found sits waits run

theorem moveWorker_moves (r : Run ε α) (i : Nat) (now : Duration) :
    r.Moves (r.moveWorker i now) := by
  unfold moveWorker
  split
  next w seat found sits =>
    split
    next subquery waits => exact moveEngine_moves found sits waits now
    next busy =>
      rw [Crew.step_act found]
      refine .act found sits ?_
      cases duty : w.duty with
      | decide subquery => exact absurd duty (busy subquery)
      | look | take | announce | hand | resolve | close | report | stopped | crashed => rfl
  next => exact r.moves_idle

theorem move_moves (r : Run ε α) (m : Move) : r.Moves (r.move m) := by
  cases m with
  | manager now => exact r.moveManager_moves now
  | worker index now => exact r.moveWorker_moves index now

/-- The states that a run can get to. -/
inductive Reaches (start : Run ε α) : Run ε α → Prop where
  | here : Reaches start start
  | move {r : Run ε α} (before : Reaches start r) (m : Move) : Reaches start (r.move m)
  | quit {r : Run ε α} (before : Reaches start r) : Reaches start { r with quitRequested := true }

/-- What holds at first and survives every move holds in every state that a run can get to. -/
theorem Reaches.invariant {start r : Run ε α} (reached : start.Reaches r)
    (property : Run ε α → Prop) (initial : property start)
    (step : ∀ {before after : Run ε α}, property before → before.Moves after → property after) :
    property r := by
  induction reached with
  | here => exact initial
  | move _ m ih => exact step ih (move_moves _ m)
  | quit _ ih => exact step ih (.manage _ true _)

theorem Reaches.trans {start middle last : Run ε α} (first : start.Reaches middle)
    (second : middle.Reaches last) : start.Reaches last := by
  induction second with
  | here => exact first
  | move _ m ih => exact ih.move m
  | quit _ ih => exact ih.quit

/-- The outcomes that a run of a query can end with. -/
inductive EndsWith (config : RunConfig α) (make : Nat → ε) (q : Query α) : RunOutcome α → Prop where
  | early {quitRequested : Bool} {engines : List ε} {verdict : Verdict}
      (prepared : prepare config make quitRequested q = .ok (engines, .decided verdict))
      (duration : Duration) : EndsWith config make q (decidedEarly verdict duration)
  | late {quitRequested : Bool} {engines : List ε} {start last : Run ε α} {reason : EndReason}
      {duration : Duration} {outcome : RunOutcome α}
      (prepared : prepare config make quitRequested q = .ok (engines, .ready start))
      (reached : start.Reaches last) (ended : last.ended? = some reason)
      (concluded : last.conclude reason duration = .ok outcome) : EndsWith config make q outcome

theorem round_reaches (r : Run ε α) (now : Duration) : r.Reaches (r.round now) := by
  have each : ∀ (indices : List Nat) (start : Run ε α),
      start.Reaches (indices.foldl (fun r i => r.move (.worker i now)) start) := by
    intro indices
    induction indices with
    | nil => exact fun _ => .here
    | cons i rest ih => exact fun start => (Reaches.here.move (.worker i now)).trans (ih _)
  exact (Reaches.here.move (.manager now)).trans (each _ _)

theorem finish_reaches {clock : Nat → Duration} {n fuel : Nat} {start last : Run ε α}
    {outcome : RunOutcome α} (run : finish clock n fuel start = .ok (outcome, last)) :
    start.Reaches last ∧ ∃ reason duration, last.ended? = some reason ∧
      last.conclude reason duration = .ok outcome := by
  induction fuel generalizing n start with
  | zero => cases run
  | succ fuel ih =>
    unfold finish at run
    split at run
    next reason ended =>
      obtain ⟨concluded, made, run⟩ := bind_eq_ok.mp run
      obtain ⟨rfl, rfl⟩ := Prod.mk.inj (Except.ok.inj run)
      exact ⟨.here, reason, clock n, ended, made⟩
    next =>
      obtain ⟨reached, ending⟩ := ih run
      exact ⟨(round_reaches start _).trans reached, ending⟩

/-- Deciding a query by rounds is one of the ways a run can go. -/
theorem solve_endsWith {config : RunConfig α} {make : Nat → ε} {quitRequested : Bool}
    {clock : Nat → Duration} {fuel : Nat} {q : Query α} {outcome : RunOutcome α} {engines : List ε}
    (run : solve config make quitRequested clock fuel q = .ok (outcome, engines)) :
    EndsWith config make q outcome := by
  obtain ⟨⟨made, preparation⟩, prepared, run⟩ := bind_eq_ok.mp run
  cases preparation with
  | decided verdict =>
    obtain ⟨rfl, -⟩ := Prod.mk.inj (Except.ok.inj run)
    exact .early prepared (clock 0)
  | ready start =>
    obtain ⟨⟨other, last⟩, finished, run⟩ := bind_eq_ok.mp run
    obtain ⟨rfl, -⟩ := Prod.mk.inj (Except.ok.inj run)
    obtain ⟨reached, reason, duration, ended, concluded⟩ := finish_reaches finished
    exact .late prepared reached ended concluded

end Run

end ReluSolver
