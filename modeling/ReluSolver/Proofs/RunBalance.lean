import ReluSolver.Proofs.RunMoves
import ReluSolver.Proofs.SubqueryPaths
import ReluSolver.Search.Scripted

/-! The statistics of a run balance on every schedule. A worker counts every answer that it
hears, by its kind. When nothing is unresolved, the answers are about the first subqueries, the
parts of those that were divided, and those that were put back, each of them once. -/

namespace ReluSolver

variable {α : Type}

namespace Reaction

/-- Whether a worker counts the answer as a decision; a crash it does not live to count. -/
def isDecision : Reaction α → Bool
  | crashed => false
  | _ => true

def isResolution : Reaction α → Bool
  | resolved => true
  | _ => false

def isDivision : Reaction α → Bool
  | divided _ => true
  | _ => false

def isRequeue : Reaction α → Bool
  | requeued _ => true
  | _ => false

end Reaction

namespace WorkPlan

variable [Scalar α] {plan : WorkPlan α} {subquery : Subquery α} {state : Option (TreeState α)}

theorem react_divided {code : ExitCode} {children : List (Subquery α)}
    (reacts : plan.react subquery code state = .divided children) :
    children.length = plan.children := by
  cases reacts ▸ plan.react_follows subquery code state with
  | divided _ count _ => exact count

theorem react_isResolution (code : ExitCode) :
    (plan.react subquery code state).isResolution = (code == .unsat) := by
  cases code with
  | timeout =>
    unfold react prolong
    dsimp only
    split
    · split <;> rfl
    · rfl
  | unsat | sat | quitRequested | error | notDone => rfl

end WorkPlan

theorem Worker.hear_counts {w : Worker α} {subquery : Subquery α} (waits : w.duty = .decide subquery)
    (reaction : Reaction α) :
    (w.hear reaction).tally.solved = w.tally.solved + reaction.isDecision.toNat ∧
      (w.hear reaction).tally.splits = w.tally.splits + reaction.isDivision.toNat ∧
      (w.hear reaction).tally.requeues = w.tally.requeues + reaction.isRequeue.toNat := by
  unfold hear
  rw [waits]
  cases reaction <;> exact ⟨rfl, rfl, rfl⟩

namespace Crew

variable {c : Crew α} {count : Tally → Nat} {kind : Reaction α → Bool}

/-- What all workers counted, also those that report nothing. -/
def total (count : Tally → Nat) (c : Crew α) : Nat := (c.workers.toList.map (count ·.tally)).sum

/-- Workers count the answers of a kind. -/
structure Tracks (count : Tally → Nat) (kind : Reaction α → Bool) : Prop where
  zero : count .zero = 0
  hear : ∀ {w : Worker α} {subquery : Subquery α}, w.duty = .decide subquery → ∀ reaction,
    count (w.hear reaction).tally = count w.tally + (kind reaction).toNat

theorem tracks_solved : Tracks (·.solved) (Reaction.isDecision : Reaction α → Bool) :=
  ⟨rfl, fun waits reaction => (Worker.hear_counts waits reaction).1⟩

theorem tracks_splits : Tracks (·.splits) (Reaction.isDivision : Reaction α → Bool) :=
  ⟨rfl, fun waits reaction => (Worker.hear_counts waits reaction).2.1⟩

theorem tracks_requeues : Tracks (·.requeues) (Reaction.isRequeue : Reaction α → Bool) :=
  ⟨rfl, fun waits reaction => (Worker.hear_counts waits reaction).2.2⟩

theorem total_eq {w : Worker α} {others : List (Worker α)}
    (whole : c.workers.toList.Perm (w :: others)) :
    c.total count = count w.tally + (others.map (count ·.tally)).sum :=
  (whole.map _).sum_eq

theorem total_act {i : Nat} {w : Worker α} (found : c.workers[i]? = some w) :
    (c.put i (w.act c.shared)).total count = c.total count := by
  obtain ⟨others, whole, changed⟩ := workers_perm found
  rw [total_eq (changed _), total_eq whole, w.act_tally]

theorem Tracks.total_hear (tracks : Tracks count kind) {i : Nat} {w : Worker α}
    {subquery : Subquery α} (found : c.workers[i]? = some w) (waits : w.duty = .decide subquery)
    (reaction : Reaction α) : (c.put i (w.hear reaction, c.shared)).total count =
      c.total count + (kind reaction).toNat := by
  obtain ⟨others, whole, changed⟩ := workers_perm found
  rw [total_eq (changed _), total_eq whole, tracks.hear waits]
  omega

/-- The books of a run in which every division gives the same number of parts, with the exit codes
that the workers got for their subqueries. -/
structure Books (start : List (Subquery α)) (parts : Nat) (codes : List ExitCode)
    (heard : List (Answer α)) (c : Crew α) : Prop where
  ledger : c.Ledger start heard
  tallied : ∀ count kind, Tracks count kind → c.total count = heard.countP (kind ·.reaction)
  divided : ∀ a ∈ heard, ∀ children, a.reaction = .divided children → children.length = parts
  resolved : heard.countP (·.reaction.isResolution) = codes.count .unsat

namespace Books

variable {start : List (Subquery α)} {parts : Nat} {codes : List ExitCode} {heard : List (Answer α)}

theorem initial (workers : Nat) (start : List (Subquery α)) (parts : Nat) :
    (Crew.start workers start).Books start parts [] [] where
  ledger := .initial workers start
  tallied := by
    intro count kind tracks
    simp [total, Crew.start, Worker.new, tracks.zero]
  divided := List.forall_mem_nil _
  resolved := rfl

theorem cancel (books : c.Books start parts codes heard) :
    (c.step .cancel).Books start parts codes heard where
  ledger := by simpa [answer?] using books.ledger.step .cancel
  tallied := books.tallied
  divided := books.divided
  resolved := books.resolved

theorem act (books : c.Books start parts codes heard) {i : Nat} {w : Worker α}
    (found : c.workers[i]? = some w) :
    (c.put i (w.act c.shared)).Books start parts codes heard where
  ledger := books.ledger.act found
  tallied := fun count kind tracks => (total_act found).trans (books.tallied count kind tracks)
  divided := books.divided
  resolved := books.resolved

theorem hear (books : c.Books start parts codes heard) {i : Nat} {w : Worker α}
    {subquery : Subquery α} (found : c.workers[i]? = some w) (waits : w.duty = .decide subquery)
    {reaction : Reaction α}
    (divides : ∀ children, reaction = .divided children → children.length = parts)
    {code : Option ExitCode} (resolves : reaction.isResolution.toNat = code.toList.count .unsat) :
    (c.put i (w.hear reaction, c.shared)).Books start parts (codes ++ code.toList)
      (heard ++ [⟨i, subquery, reaction⟩]) where
  ledger := books.ledger.hear found waits reaction
  tallied := by
    intro count kind tracks
    rw [tracks.total_hear found waits, books.tallied count kind tracks, List.countP_append,
      List.countP_singleton]
    cases kind reaction <;> rfl
  divided := by
    intro a member
    rcases List.mem_append.mp member with earlier | last
    · exact books.divided a earlier
    · obtain rfl := List.mem_singleton.mp last
      exact divides
  resolved := by
    rw [List.countP_append, List.count_append, books.resolved, ← resolves, List.countP_singleton]
    cases reaction.isResolution <;> rfl

end Books

section Answers

theorem countP_cons_toNat {β : Type} (p : β → Bool) (item : β) (items : List β) :
    (item :: items).countP p = items.countP p + (p item).toNat := by
  rw [List.countP_cons]
  cases p item <;> rfl

variable {heard : List (Answer α)} (settled : ∀ a ∈ heard, a.reaction = .resolved ∨
  (∃ children, a.reaction = .divided children) ∨ ∃ again, a.reaction = .requeued again)
include settled

/-- Answers that leave nothing unresolved are of three kinds, and all of them are decisions. -/
theorem countP_kinds :
    heard.countP (·.reaction.isDecision) = heard.length ∧
      heard.length = heard.countP (·.reaction.isResolution) +
        heard.countP (·.reaction.isDivision) + heard.countP (·.reaction.isRequeue) := by
  induction heard with
  | nil => exact ⟨rfl, rfl⟩
  | cons a rest ih =>
    obtain ⟨decisions, kinds⟩ := ih fun other member => settled other (by simp [member])
    have here : a.reaction.isDecision.toNat = 1 ∧ a.reaction.isResolution.toNat +
        a.reaction.isDivision.toNat + a.reaction.isRequeue.toNat = 1 := by
      rcases settled a (by simp) with shape | ⟨children, shape⟩ | ⟨again, shape⟩ <;>
        (rw [shape]; exact ⟨rfl, rfl⟩)
    simp only [countP_cons_toNat, List.length_cons]
    omega

theorem offspring_length {parts : Nat}
    (divided : ∀ a ∈ heard, ∀ children, a.reaction = .divided children → children.length = parts) :
    (heard.flatMap (·.reaction.offspring)).length =
      heard.countP (·.reaction.isDivision) * parts + heard.countP (·.reaction.isRequeue) := by
  induction heard with
  | nil => simp
  | cons a rest ih =>
    have later := ih (fun other member => settled other (by simp [member]))
      fun other member => divided other (by simp [member])
    have here : a.reaction.offspring.length =
        a.reaction.isDivision.toNat * parts + a.reaction.isRequeue.toNat := by
      rcases settled a (by simp) with shape | ⟨children, shape⟩ | ⟨again, shape⟩
      · rw [shape]
        exact (Nat.zero_mul parts).symm
      · rw [shape]
        exact (divided a (by simp) children shape).trans (Nat.one_mul parts).symm
      · rw [shape]
        exact (congrArg (· + 1) (Nat.zero_mul parts)).symm
    simp only [List.flatMap_cons, List.length_append, later, here, countP_cons_toNat, Nat.add_mul]
    omega

end Answers

theorem Books.unsat {start : List (Subquery α)} {parts : Nat} {codes : List ExitCode}
    {heard : List (Answer α)} (books : c.Books start parts codes heard)
    {timeoutReached quitRequested : Bool}
    (verdict : Verdict.decide (c.evidence timeoutReached quitRequested) = .ok .unsat) :
    c.total (·.solved) = start.length + c.total (·.splits) * parts + c.total (·.requeues) ∧
      codes.count .unsat + c.total (·.splits) = start.length + c.total (·.splits) * parts := by
  obtain ⟨complete, settled⟩ := books.ledger.unsat verdict
  obtain ⟨decisions, kinds⟩ := countP_kinds settled
  have answered := complete.length_eq
  rw [List.length_map, List.length_append, offspring_length settled books.divided] at answered
  rw [books.tallied _ _ tracks_solved, books.tallied _ _ tracks_splits,
    books.tallied _ _ tracks_requeues, ← books.resolved]
  omega

end Crew

inductive Step where
  | move (move : Move)
  /-- Somebody asks the run to quit. -/
  | askQuit

namespace Run

variable {ε : Type} [SearchEngine ε α] [Scalar α]

/-- The exit code that a worker gets for its subquery in a move. -/
def code? (r : Run ε α) : Move → Option ExitCode
  | .manager _ => none
  | .worker index now =>
    match r.crew.workers[index]?, r.seats[index]? with
    | some w, some seat =>
      match w.duty with
      | .decide subquery =>
        match r.runEngine seat subquery now seat.engine with
        | .ok code _ => code
        | .error _ _ => none
      | _ => none
    | _, _ => none

def answer? (r : Run ε α) : Move → Option (Answer α)
  | .manager _ => none
  | .worker index now =>
    match r.crew.workers[index]?, r.seats[index]? with
    | some w, some seat =>
      match w.duty with
      | .decide subquery =>
        match r.runEngine seat subquery now seat.engine with
        | .ok none _ => none
        | .ok (some code) engine =>
          some ⟨index, subquery, r.plan.react subquery code (SearchEngine.treeState? engine)⟩
        | .error _ _ => some ⟨index, subquery, .crashed⟩
      | _ => none
    | _, _ => none

def step (r : Run ε α) : Step → Run ε α
  | .move m => r.move m
  | .askQuit => { r with quitRequested := true }

/-- The run after some steps. -/
def after (r : Run ε α) (steps : List Step) : Run ε α := steps.foldl step r

def codes (r : Run ε α) : List Step → List ExitCode
  | [] => []
  | .move m :: rest => (r.code? m).toList ++ (r.move m).codes rest
  | .askQuit :: rest => (r.step .askQuit).codes rest

def answers (r : Run ε α) : List Step → List (Answer α)
  | [] => []
  | .move m :: rest => (r.answer? m).toList ++ (r.move m).answers rest
  | .askQuit :: rest => (r.step .askQuit).answers rest

/-- What a move makes of the crew, with the exit code and the answer that it brings to a worker. -/
inductive Brings (r : Run ε α) : Option ExitCode → Option (Answer α) → Crew α → Prop where
  | idle : Brings r none none r.crew
  | cancel : Brings r none none (r.crew.step .cancel)
  | act {i : Nat} {w : Worker α} (found : r.crew.workers[i]? = some w) :
      Brings r none none (r.crew.put i (w.act r.crew.shared))
  | answer {i : Nat} {w : Worker α} {subquery : Subquery α}
      (found : r.crew.workers[i]? = some w) (waits : w.duty = .decide subquery) (code : ExitCode)
      (state : Option (TreeState α)) :
      Brings r (some code) (some ⟨i, subquery, r.plan.react subquery code state⟩)
        (r.crew.put i (w.hear (r.plan.react subquery code state), r.crew.shared))
  | crash {i : Nat} {w : Worker α} {subquery : Subquery α} (found : r.crew.workers[i]? = some w)
      (waits : w.duty = .decide subquery) :
      Brings r none (some ⟨i, subquery, .crashed⟩)
        (r.crew.put i (w.hear .crashed, r.crew.shared))

omit [SearchEngine ε α] in
theorem moveManager_brings (r : Run ε α) (now : Duration) :
    r.Brings none none (r.moveManager now).crew := by
  unfold moveManager
  split
  · split <;> exact .idle
  · exact .cancel
  · exact .idle
  · exact .idle

theorem moveEngine_brings {r : Run ε α} {i : Nat} {w : Worker α} {seat : Seat ε}
    {subquery : Subquery α} (found : r.crew.workers[i]? = some w) (sits : r.seats[i]? = some seat)
    (waits : w.duty = .decide subquery) (now : Duration) :
    r.Brings (r.code? (.worker i now)) (r.answer? (.worker i now))
      (r.moveEngine i seat subquery now).crew := by
  cases run : r.runEngine seat subquery now seat.engine with
  | ok code engine =>
    cases code with
    | none =>
      simp only [code?, answer?, moveEngine, found, sits, waits, run]
      exact .idle
    | some code =>
      simp only [code?, answer?, moveEngine, found, sits, waits, run, Crew.step_hear found]
      exact .answer found waits code _
  | error cause engine =>
    simp only [code?, answer?, moveEngine, found, sits, waits, run, Crew.step_hear found]
    exact .crash found waits

theorem moveWorker_brings (r : Run ε α) (i : Nat) (now : Duration) :
    r.Brings (r.code? (.worker i now)) (r.answer? (.worker i now)) (r.moveWorker i now).crew := by
  unfold moveWorker
  split
  next w seat found sits =>
    split
    next subquery waits => exact moveEngine_brings found sits waits now
    next busy =>
      simp only [code?, answer?, found, sits, Crew.step_act found]
      exact .act found
  next absent =>
    simp only [code?, answer?]
    exact .idle

theorem move_brings (r : Run ε α) (m : Move) :
    r.Brings (r.code? m) (r.answer? m) (r.move m).crew := by
  cases m with
  | manager now => exact r.moveManager_brings now
  | worker index now => exact r.moveWorker_brings index now

variable {r next : Run ε α} {start : List (Subquery α)} {codes : List ExitCode}
  {heard : List (Answer α)}

omit [SearchEngine ε α] in
theorem Brings.books (books : r.crew.Books start r.plan.children codes heard)
    {code : Option ExitCode} {answer : Option (Answer α)} {c : Crew α}
    (brings : r.Brings code answer c) :
    c.Books start r.plan.children (codes ++ code.toList) (heard ++ answer.toList) := by
  cases brings with
  | idle => simpa using books
  | cancel => simpa using books.cancel
  | act found => simpa using books.act found
  | answer found waits code state =>
    refine books.hear found waits (fun children => WorkPlan.react_divided) ?_
    rw [WorkPlan.react_isResolution, Option.toList_some, List.count_singleton]
    cases code <;> rfl
  | crash found waits =>
    exact books.hear found waits (fun children shape => by cases shape) rfl

theorem Moves.plan (moved : r.Moves next) :
    next.plan = r.plan ∧ next.initialSubqueries = r.initialSubqueries := by
  cases moved <;> exact ⟨rfl, rfl⟩

/-- All steps of a run keep the books. -/
theorem after_books (books : r.crew.Books start r.plan.children codes heard) (steps : List Step) :
    (r.after steps).crew.Books start r.plan.children (codes ++ r.codes steps)
        (heard ++ r.answers steps) ∧
      (r.after steps).initialSubqueries = r.initialSubqueries := by
  induction steps generalizing r codes heard with
  | nil => exact ⟨by simpa [after, Run.codes, answers] using books, rfl⟩
  | cons first rest ih =>
    cases first with
    | move m =>
      obtain ⟨plan, initial⟩ := (r.move_moves m).plan
      obtain ⟨last, same⟩ := ih (plan.symm ▸ (r.move_brings m).books books)
      rw [plan, List.append_assoc, List.append_assoc] at last
      exact ⟨last, same.trans initial⟩
    | askQuit => exact ih (r := r.step .askQuit) books

omit [SearchEngine ε α] in
theorem begin_books {config : RunConfig α} {q p : Query α} {map : Option (VariableMap α)}
    {engines : List ε} {quitRequested : Bool} (run : begin config q p map engines quitRequested = .ok r) :
    r.plan.children = 2 ^ config.onlineDivides ∧
      r.initialSubqueries = r.crew.shared.queue.waiting.length ∧
      r.crew.Books r.crew.shared.queue.waiting r.plan.children [] [] := by
  obtain ⟨effort, -, run⟩ := bind_eq_ok.mp run
  obtain ⟨region, -, run⟩ := bind_eq_ok.mp run
  obtain ⟨start, -, run⟩ := bind_eq_ok.mp run
  obtain rfl := Except.ok.inj run
  exact ⟨rfl, rfl, .initial engines.length start _⟩

theorem prepare_begun {config : RunConfig α} {make : Nat → ε} {quitRequested : Bool} {q : Query α}
    {made : List ε} (run : prepare config make quitRequested q = .ok (made, .ready r)) :
    ∃ p map engines, begin config q p map engines quitRequested = .ok r := by
  obtain failed | ⟨-, -, refused⟩ | ⟨base, p, engines, loading, -, -, -, rest⟩ := prepare_cases run
  · cases failed
  · cases refused
  · cases loading with
    | stopped => cases rest
    | done =>
      obtain ⟨other, begun, same⟩ := rest
      obtain rfl := Preparation.ready.inj same
      exact ⟨p, _, engines, begun⟩

omit [Scalar α] in
/-- The statistics of a run without a solution are what all of its workers counted. -/
theorem conclude_statistics {reason : EndReason} {duration : Duration} {outcome : RunOutcome α}
    (concluded : r.conclude reason duration = .ok outcome) (unsat : outcome.verdict = .unsat) :
    outcome.statistics.initialSubqueries = r.initialSubqueries ∧
      outcome.statistics.solved = r.crew.total (·.solved) ∧
      outcome.statistics.splits = r.crew.total (·.splits) ∧
      outcome.statistics.requeues = r.crew.total (·.requeues) ∧ outcome.statistics.errors = 0 := by
  have decided := (conclude_eq_ok concluded).1
  rw [unsat] at decided
  obtain ⟨errors, crashes⟩ := Crew.clean_of_evidence (Crew.of_decide_unsat decided).2.1
  have reported : ∀ count : Tally → Nat,
      r.crew.tallies.foldr (fun t sum => count t + sum) 0 = r.crew.total count := by
    intro count
    rw [Crew.foldr_tallies, Crew.tallies_of_crashes crashes, List.map_map]
    rfl
  unfold conclude at concluded
  obtain ⟨verdict, -, made⟩ := bind_eq_ok.mp concluded
  rw [RunOutcome.eq_of_make made]
  exact ⟨rfl, reported _, reported _, reported _, Nat.add_eq_zero_iff.mpr ⟨errors, crashes⟩⟩

end Run

/-- The counts of a run without a solution fit together, where `codes` are the exit codes that its
workers got and a subquery is divided into two to the power of `divides`. -/
structure RunStatistics.Balanced (s : RunStatistics) (divides : Nat) (codes : List ExitCode) :
    Prop where
  solved : s.solved = s.initialSubqueries + s.splits * 2 ^ divides + s.requeues
  errors : s.errors = 0
  unsat : codes.count .unsat = s.initialSubqueries + s.splits * (2 ^ divides - 1)

namespace Run

variable {ε : Type} [SearchEngine ε α] [Scalar α]

/-- Whatever steps a run takes, with whatever engines: if it is then concluded that there is no
solution, the statistics balance. -/
theorem unsat_run_balanced {config : RunConfig α} {make : Nat → ε} {quitRequested : Bool}
    {q : Query α} {engines : List ε} {start : Run ε α}
    (prepared : prepare config make quitRequested q = .ok (engines, .ready start))
    (steps : List Step) {reason : EndReason} {duration : Duration} {outcome : RunOutcome α}
    (concluded : (start.after steps).conclude reason duration = .ok outcome)
    (unsat : outcome.verdict = .unsat) :
    outcome.statistics.Balanced config.onlineDivides (start.codes steps) := by
  obtain ⟨p, map, seated, begun⟩ := prepare_begun prepared
  obtain ⟨parts, initial, books⟩ := begin_books begun
  obtain ⟨books, kept⟩ := after_books books steps
  obtain ⟨counted, solved, splits, requeues, errors⟩ := conclude_statistics concluded unsat
  have decided := (conclude_eq_ok concluded).1
  rw [unsat] at decided
  obtain ⟨decisions, resolutions⟩ := books.unsat decided
  rw [parts, ← splits, ← initial, ← kept, ← counted] at decisions resolutions
  rw [← solved, ← requeues] at decisions
  refine ⟨decisions, errors, ?_⟩
  have positive : outcome.statistics.splits ≤ outcome.statistics.splits * 2 ^ config.onlineDivides :=
    Nat.le_mul_of_pos_right _ (Nat.two_pow_pos _)
  rw [List.nil_append] at resolutions
  rw [Nat.mul_sub_one]
  omega

/-- Two workers have one half of an interval each. The first half is out of time and divided, one of
its parts is out of time as well and put back, and everything else has no solution. -/
theorem unsat_run_balanced_prolonged :
    let settings : SearchConfig Extended := ⟨0, .denseLu, ⟨1, 1⟩, 1, 0, 0, 0, 0⟩
    let config : RunConfig Extended :=
      { (RunConfig.default : RunConfig Extended) with
        workers := 2, initialDivides := 1, initialTimeout := .zero, onlineDivides := 1
        onlineDivideDepth := 2, engine := settings }
    let query : Query Extended := { Query.unconstrained 1 with
      bounds := #v[⟨0, 1⟩]
      inputs := [0]
      inputs_known := by decide }
    let cues : Nat → List Cue := fun i =>
      if i = 1 then [.code .timeout, .code .unsat]
      else [.code .unsat, .code .timeout, .code .unsat]
    let make : Nat → Scripted Extended := fun i => .new ⟨.accepted, cues i, false, none⟩
    let round : List Step :=
      [.move (.manager .zero), .move (.worker 0 .zero), .move (.worker 1 .zero)]
    let steps := (List.replicate 17 round).flatten
    let codes : List ExitCode := [.timeout, .unsat, .timeout, .unsat, .unsat]
    ∃ engines start reason outcome, prepare config make false query = .ok (engines, .ready start) ∧
      (start.after steps).ended? = some reason ∧ start.codes steps = codes ∧
      (start.after steps).conclude reason .zero = .ok outcome ∧ outcome.verdict = .unsat ∧
      outcome.statistics = ⟨2, 2, 5, 1, 1, 0, .zero⟩ ∧ outcome.statistics.Balanced 1 codes := by
  intro settings config query cues make round steps codes
  let ending (last : Run (Scripted Extended) Extended) : Option (Verdict × RunStatistics) :=
    last.ended?.bind fun reason => (last.conclude reason .zero).toOption.map fun outcome =>
      (outcome.verdict, outcome.statistics)
  have evaluated : (prepare config make false query).toOption.map (fun made =>
      match made.2 with
      | .ready start => some (start.codes steps, ending (start.after steps))
      | .decided _ => none) =
        some (some (codes, some (.unsat, ⟨2, 2, 5, 1, 1, 0, .zero⟩))) := by
    decide +kernel
  obtain ⟨⟨engines, preparation⟩, prepared, told⟩ := toOption_map_eq_some evaluated
  cases preparation with
  | decided => cases told
  | ready start =>
    obtain ⟨heard, told⟩ := Prod.mk.inj (Option.some.inj told)
    obtain ⟨reason, ended, told⟩ := Option.bind_eq_some_iff.mp told
    obtain ⟨outcome, concluded, told⟩ := toOption_map_eq_some told
    obtain ⟨verdict, statistics⟩ := Prod.mk.inj told
    have balanced := unsat_run_balanced prepared steps concluded verdict
    rw [heard] at balanced
    exact ⟨engines, start, reason, outcome, prepared, ended, heard, concluded, verdict, statistics,
      balanced⟩

end Run

end ReluSolver
