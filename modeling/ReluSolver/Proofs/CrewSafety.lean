import Mathlib.Data.List.Nodup
import ReluSolver.Number.Extended
import ReluSolver.Proofs.CrewLedger
import ReluSolver.Proofs.Steps
import ReluSolver.Run.Manager

/-! What the books of a run promise: a worker cancels the run only with a solution or
when nothing is left, and a run that ends unsatisfied has an answer about every
subquery that ever came up. -/

namespace ReluSolver

variable {α : Type}

theorem Duty.held_of_counted {d : Duty α} (idle : d.counted = 0) : d.held = [] := by
  cases d with
  | decide | announce => cases idle
  | hand subqueries => exact List.length_eq_zero_iff.mp idle
  | look | take | resolve | close | report | stopped | crashed => rfl

namespace Crew

/-- What the manager sees of a crew when it decides on the verdict. -/
def evidence (c : Crew α) (timeoutReached quitRequested : Bool) : Verdict.Evidence where
  foundSat := c.tallies.any (·.foundSat)
  timeoutReached := timeoutReached
  quitRequested := quitRequested
  failed := c.tallies.foldr (fun t sum => t.errors + sum) 0 + c.crashes != 0
  unresolved := c.shared.unresolved

theorem of_decide_unsat {e : Verdict.Evidence} (verdict : Verdict.decide e = .ok .unsat) :
    e.foundSat = false ∧ e.failed = false ∧ e.unresolved = 0 := by
  unfold Verdict.decide at verdict
  split at verdict
  · cases verdict
  next notFound =>
    split at verdict
    · cases verdict
    · split at verdict
      · cases verdict
      · split at verdict
        · cases verdict
        next notFailed =>
          split at verdict
          next zero => exact ⟨Bool.not_eq_true _ ▸ notFound, Bool.not_eq_true _ ▸ notFailed, zero⟩
          next => cases verdict

theorem of_decide_sat {e : Verdict.Evidence} (verdict : Verdict.decide e = .ok .sat) :
    e.foundSat = true := by
  unfold Verdict.decide at verdict
  split at verdict
  next found => exact found
  next => repeat' split at verdict
          all_goals cases verdict

theorem tally_of_report {w : Worker α} {t : Tally} (reported : w.report? = some t) : w.tally = t := by
  unfold Worker.report? at reported
  split at reported
  · cases reported
  · exact Option.some.inj reported

theorem foldr_tallies (count : Tally → Nat) (tallies : List Tally) :
    tallies.foldr (fun t sum => count t + sum) 0 = (tallies.map count).sum := by
  rw [List.sum_eq_foldr, List.foldr_map]

theorem tallies_of_crashes {c : Crew α} (none : c.crashes = 0) :
    c.tallies = c.workers.toList.map (·.tally) := by
  have reported : ∀ w ∈ c.workers.toList, w.report? = some w.tally := by
    have count : c.workers.toList.length ≤ c.tallies.length := by
      simp only [crashes, Array.length_toList] at none ⊢
      omega
    have all := List.filterMap_length_eq_length.mp
      (Nat.le_antisymm (List.length_filterMap_le _ _) count)
    intro w member
    have := all w member
    unfold Worker.report? at this ⊢
    split at this
    · cases this
    · rfl
  unfold tallies
  rw [← List.filterMap_eq_map]
  exact List.filterMap_congr reported

theorem clean_of_evidence {c : Crew α} {timeoutReached quitRequested : Bool}
    (clean : (c.evidence timeoutReached quitRequested).failed = false) :
    c.tallies.foldr (fun t sum => t.errors + sum) 0 = 0 ∧ c.crashes = 0 := by
  simpa [evidence] using clean

theorem failures_of_evidence {c : Crew α} {timeoutReached quitRequested : Bool}
    (clean : (c.evidence timeoutReached quitRequested).failed = false) : c.failures = 0 := by
  obtain ⟨errors, crashes⟩ := clean_of_evidence clean
  rw [failures, ← errors, foldr_tallies, tallies_of_crashes crashes, List.map_map]
  rfl

variable {c : Crew α} {start : List (Subquery α)} {heard : List (Answer α)}

namespace Ledger

theorem nonneg (ledger : c.Ledger start heard) : 0 ≤ c.shared.unresolved := by
  rw [ledger.counter]
  omega

theorem idle (ledger : c.Ledger start heard) (zero : c.shared.unresolved = 0) :
    c.shared.queue.waiting = [] ∧ (∀ w ∈ c.workers, w.duty.held = []) ∧
      ∀ a ∈ heard, a.reaction.settles = true := by
  have counter := ledger.counter
  have none : c.shared.queue.size = 0 ∧ c.counted = 0 ∧ c.abandoned.length = 0 := by omega
  refine ⟨List.length_eq_zero_iff.mp none.1, ?_, ?_⟩
  · intro w member
    have present := List.mem_map_of_mem (f := fun v : Worker α => v.duty.counted)
      (Array.mem_toList_iff.mpr member)
    exact Duty.held_of_counted (List.sum_eq_zero_iff_forall_eq_nat.mp none.2.1 _ present)
  · intro a member
    have lost := ledger.lost
    rw [List.length_eq_zero_iff.mp none.2.2] at lost
    have settled := List.map_eq_nil_iff.mp lost.symm.eq_nil
    simpa using List.filter_eq_nil_iff.mp settled a member

theorem alone (ledger : c.Ledger start heard)
    (distinct : (start ++ heard.flatMap (·.reaction.offspring)).Nodup) {i j : Nat} {v w : Worker α}
    (other : i ≠ j) (first : c.workers[i]? = some v) (second : c.workers[j]? = some w) :
    ∀ s ∈ v.duty.held, s ∉ w.duty.held ∧ s ∉ c.shared.queue.waiting := by
  have apart := List.nodup_append.mp (ledger.complete.symm.nodup distinct)
  have parts := List.nodup_append.mp apart.1
  have hands := (List.nodup_flatMap.mp parts.2.1).2
  have known := fun {k : Nat} {u : Worker α} (found : c.workers[k]? = some u) =>
    Array.getElem?_eq_some_iff.mp found
  intro s held
  constructor
  · intro also
    obtain ⟨inside, rfl⟩ := known first
    obtain ⟨within, rfl⟩ := known second
    have disjoint : (c.workers[i].duty.held).Disjoint c.workers[j].duty.held := by
      rcases Nat.lt_or_gt_of_ne other with less | greater
      · have := List.pairwise_iff_getElem.mp hands i j (by simpa) (by simpa) less
        simpa [Function.onFun] using this
      · have := List.pairwise_iff_getElem.mp hands j i (by simpa) (by simpa) greater
        simpa [Function.onFun, List.disjoint_comm] using this
    exact disjoint held also
  · intro waits
    have present : s ∈ c.held :=
      List.mem_flatMap.mpr ⟨v, Array.mem_toList_iff.mpr (Array.mem_of_getElem? first), held⟩
    exact parts.2.2 s waits s present rfl

theorem cancels (ledger : c.Ledger start heard) {event : Event α}
    (before : c.shared.cancelled = false) (after : (c.step event).shared.cancelled = true) :
    event = .cancel ∨ ∃ i w, event = .act i ∧ c.workers[i]? = some w ∧
      ((∃ s, ⟨i, s, .found⟩ ∈ heard) ∨
        (c.shared.unresolved = 0 ∧ c.shared.queue.waiting = [] ∧
          ∀ v ∈ c.workers, v.duty.held = [])) := by
  rcases c.step_cases event with ⟨same, -⟩ | ⟨cancel, -, -⟩ | ⟨i, w, act, found, -, same⟩ |
    ⟨i, w, subquery, reaction, -, found, -, -, same⟩
  · rw [same, before] at after
    cases after
  · exact .inl cancel
  · rw [same, put_shared] at after
    refine .inr ⟨i, w, act, found, ?_⟩
    cases duty : w.duty with
    | report => exact .inl (ledger.reporting i w found duty)
    | close =>
      have zero := ledger.closing w (Array.mem_of_getElem? found) duty
      obtain ⟨empty, free, -⟩ := ledger.idle zero
      exact .inr ⟨zero, empty, free⟩
    | look | decide | announce | hand | resolve | stopped | crashed =>
      simp [Worker.act, duty, before] at after
    | take =>
      unfold Worker.act at after
      rw [duty] at after
      dsimp only at after
      split at after <;> simp [before] at after
  · rw [same, put_shared, before] at after
    cases after

/-- A run that counts as unsatisfied heard about every subquery once, and each of them was resolved,
divided or put back. -/
theorem unsat (ledger : c.Ledger start heard) {timeoutReached quitRequested : Bool}
    (verdict : Verdict.decide (c.evidence timeoutReached quitRequested) = .ok .unsat) :
    (heard.map (·.subquery)).Perm (start ++ heard.flatMap (·.reaction.offspring)) ∧
      ∀ a ∈ heard, a.reaction = .resolved ∨ (∃ children, a.reaction = .divided children) ∨
        ∃ again, a.reaction = .requeued again := by
  obtain ⟨-, clean, zero⟩ := of_decide_unsat verdict
  obtain ⟨empty, free, settled⟩ := ledger.idle zero
  have held : c.held = [] := by
    rw [Crew.held, List.flatMap_eq_nil_iff]
    exact fun w member => free w (Array.mem_toList_iff.mp member)
  refine ⟨by simpa [empty, held] using ledger.complete, fun a member => ?_⟩
  have passed := List.countP_eq_zero.mp (ledger.failures ▸ failures_of_evidence clean) a member
  have done := settled a member
  cases shape : a.reaction with
  | resolved => exact .inl rfl
  | divided children => exact .inr (.inl ⟨children, rfl⟩)
  | requeued again => exact .inr (.inr ⟨again, rfl⟩)
  | found | dropped | crashed => rw [shape] at done; cases done
  | failed => rw [shape] at passed; exact absurd rfl passed

end Ledger

/-- The promises of a crew that began with some subqueries and heard some answers. -/
structure Safe (start : List (Subquery α)) (heard : List (Answer α)) (c : Crew α) : Prop where
  /-- Every subquery waits, is held by a worker, or was answered, and is so once. -/
  complete : (c.shared.queue.waiting ++ c.held ++ heard.map (·.subquery)).Perm
    (start ++ heard.flatMap (·.reaction.offspring))
  alone : (start ++ heard.flatMap (·.reaction.offspring)).Nodup →
    ∀ (i j : Nat) (v w : Worker α), i ≠ j → c.workers[i]? = some v → c.workers[j]? = some w →
      ∀ s ∈ v.duty.held, s ∉ w.duty.held ∧ s ∉ c.shared.queue.waiting
  /-- Only answers that settle nothing leave a subquery behind. -/
  lost : c.abandoned.Perm ((heard.filter (!·.reaction.settles)).map (·.subquery))
  counter : c.shared.unresolved = c.shared.queue.size + c.counted + c.abandoned.length
  nonneg : 0 ≤ c.shared.unresolved
  cancels : ∀ event, c.shared.cancelled = false → (c.step event).shared.cancelled = true →
    event = .cancel ∨ ∃ i w, event = .act i ∧ c.workers[i]? = some w ∧
      ((∃ s, ⟨i, s, .found⟩ ∈ heard) ∨
        (c.shared.unresolved = 0 ∧ c.shared.queue.waiting = [] ∧
          ∀ v ∈ c.workers, v.duty.held = []))
  unsat : ∀ timeoutReached quitRequested,
    Verdict.decide (c.evidence timeoutReached quitRequested) = .ok .unsat →
    (heard.map (·.subquery)).Perm (start ++ heard.flatMap (·.reaction.offspring)) ∧
      ∀ a ∈ heard, a.reaction = .resolved ∨ (∃ children, a.reaction = .divided children) ∨
        ∃ again, a.reaction = .requeued again

/-- In every interleaving of the workers' steps, with any answers of their engines and the run
cancelled from outside at any moment, the crew keeps its promises. -/
theorem run_safe (workers : Nat) (start : List (Subquery α)) (events : List (Event α)) :
    ((Crew.start workers start).run events).Safe start
      ((Crew.start workers start).answers events) := by
  have ledger := ledger_run workers start events
  refine ⟨ledger.complete, ?_, ledger.lost, ledger.counter, ledger.nonneg, ?_, ?_⟩
  · intro distinct i j v w other first second
    exact ledger.alone distinct other first second
  · intro event before after
    exact ledger.cancels before after
  · intro timeoutReached quitRequested verdict
    exact ledger.unsat verdict

/-- One worker that resolves the only subquery closes the run, and the verdict is unsatisfied. -/
theorem run_safe_resolved :
    let first : Subquery Extended := ⟨"1", .empty, .zero, 0, none⟩
    let events : List (Event Extended) :=
      [.act 0, .act 0, .hear 0 .resolved, .act 0, .act 0, .act 0]
    ((Crew.start 1 [first]).run events).isOver = true ∧
      Verdict.decide (((Crew.start 1 [first]).run events).evidence false false) = .ok .unsat ∧
      (((Crew.start 1 [first]).answers events).map (·.subquery)).Perm [first] := by
  intro first events
  have verdict : Verdict.decide (((Crew.start 1 [first]).run events).evidence false false) =
      .ok .unsat := by cbv
  exact ⟨by cbv, verdict, ((run_safe 1 [first] events).unsat false false verdict).1⟩

end Crew

theorem RunOutcome.eq_of_make {verdict : Verdict} {solution : Option (List (Variable × α))}
    {statistics : RunStatistics} {outcome : RunOutcome α}
    (made : make verdict solution statistics = .ok outcome) :
    outcome = ⟨verdict, solution, statistics⟩ := by
  unfold make at made
  split at made
  · exact (Except.ok.inj made).symm
  · cases made

/-- The manager decides on what it sees of its crew, and asks for a solution after that. -/
theorem Run.conclude_eq_ok {ε : Type} [SearchEngine ε α] {r : Run ε α} {reason : EndReason}
    {duration : Duration} {outcome : RunOutcome α}
    (concluded : r.conclude reason duration = .ok outcome) :
    Verdict.decide (r.crew.evidence (reason = .timeoutReached)
        (reason = .quitRequested || r.quitRequested)) = .ok outcome.verdict ∧
      outcome.solution = if outcome.verdict = .sat then r.solution? else none := by
  unfold conclude at concluded
  obtain ⟨verdict, decided, made⟩ := bind_eq_ok.mp concluded
  rw [RunOutcome.eq_of_make made]
  exact ⟨decided, rfl⟩

end ReluSolver
