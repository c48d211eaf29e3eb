import Mathlib.Algebra.BigOperators.Group.List.Basic
import Mathlib.Algebra.GroupWithZero.Nat
import Mathlib.Data.List.Count
import ReluSolver.Run.Worker

/-! Where every subquery of a run is. In every interleaving of the workers' steps each
one waits, is held by one worker, or was answered, and the counter of unresolved
subqueries says how many are neither resolved nor replaced. -/

namespace ReluSolver

variable {α : Type}

namespace Reaction

/-- The subqueries that an answer brings into the run. -/
def offspring : Reaction α → List (Subquery α)
  | divided children => children
  | requeued again => [again]
  | _ => []

/-- Whether the run is done with a subquery after an answer. -/
def settles : Reaction α → Bool
  | found | dropped | crashed => false
  | _ => true

def isFailure : Reaction α → Bool
  | failed => true
  | _ => false

end Reaction

/-- What a worker was told about a subquery. -/
structure Answer (α : Type) where
  worker : Nat
  subquery : Subquery α
  reaction : Reaction α

namespace Duty

def subject? : Duty α → Option (Subquery α)
  | decide subquery => some subquery
  | _ => none

def held : Duty α → List (Subquery α)
  | decide subquery => [subquery]
  | announce children => children
  | hand subqueries => subqueries
  | _ => []

/-- What a worker still has to take off the counter, or to put into the queue for it. -/
def counted : Duty α → Nat
  | decide _ | announce _ | resolve => 1
  | hand subqueries => subqueries.length
  | _ => 0

end Duty

theorem setIfInBounds_found {β : Type} {items : Array β} {i j : Nat} {changed item : β}
    (found : (items.setIfInBounds i changed)[j]? = some item) :
    (i = j ∧ item = changed) ∨ (i ≠ j ∧ items[j]? = some item) := by
  rw [Array.getElem?_setIfInBounds] at found
  split at found
  next same =>
    split at found
    · exact .inl ⟨same, (Option.some.inj found).symm⟩
    · cases found
  next other => exact .inr ⟨other, found⟩

theorem setIfInBounds_same {β : Type} {items : Array β} {i : Nat} {item : β}
    (found : items[i]? = some item) : items.setIfInBounds i item = items := by
  obtain ⟨inside, rfl⟩ := Array.getElem?_eq_some_iff.mp found
  rw [Array.setIfInBounds, dif_pos inside, Array.set_getElem_self]

namespace Crew

/-- The answer that an event brings to a worker that waits for one. -/
def answer? (c : Crew α) : Event α → Option (Answer α)
  | .hear i reaction => (c.workers[i]?.bind (·.duty.subject?)).map (⟨i, ·, reaction⟩)
  | _ => none

def run (c : Crew α) (events : List (Event α)) : Crew α := events.foldl step c

def answers (c : Crew α) : List (Event α) → List (Answer α)
  | [] => []
  | event :: rest => (c.answer? event).toList ++ (c.step event).answers rest

def held (c : Crew α) : List (Subquery α) := c.workers.toList.flatMap (·.duty.held)

def abandoned (c : Crew α) : List (Subquery α) := c.workers.toList.flatMap (·.abandoned)

def counted (c : Crew α) : Nat := (c.workers.toList.map (·.duty.counted)).sum

def failures (c : Crew α) : Nat := (c.workers.toList.map (·.tally.errors)).sum

def put (c : Crew α) (i : Nat) (changed : Worker α × Shared α) : Crew α :=
  ⟨changed.2, c.workers.setIfInBounds i changed.1⟩

@[simp] theorem put_shared (c : Crew α) (i : Nat) (changed : Worker α × Shared α) :
    (c.put i changed).shared = changed.2 := rfl

@[simp] theorem put_size (c : Crew α) (i : Nat) (changed : Worker α × Shared α) :
    (c.put i changed).workers.size = c.workers.size := Array.size_setIfInBounds

theorem workers_perm {c : Crew α} {i : Nat} {w : Worker α} (found : c.workers[i]? = some w) :
    ∃ others, c.workers.toList.Perm (w :: others) ∧
      ∀ changed, (c.put i changed).workers.toList.Perm (changed.1 :: others) := by
  obtain ⟨inside, same⟩ := Array.getElem?_eq_some_iff.mp found
  refine ⟨c.workers.toList.take i ++ c.workers.toList.drop (i + 1), ?_, fun changed => ?_⟩
  · have whole : c.workers.toList =
        c.workers.toList.take i ++ w :: c.workers.toList.drop (i + 1) := by
      rw [← same, ← Array.getElem_toList inside, List.getElem_cons_drop, List.take_append_drop]
    nth_rewrite 1 [whole]
    exact List.perm_middle
  · rw [put, Array.toList_setIfInBounds, List.set_eq_take_append_cons_drop,
      if_pos (by simpa using inside)]
    exact List.perm_middle

theorem put_same {c : Crew α} {i : Nat} {w : Worker α} (found : c.workers[i]? = some w) :
    c.put i (w, c.shared) = c := by
  rw [put, setIfInBounds_same found]

theorem put_worker {c : Crew α} {i j : Nat} {changed : Worker α × Shared α} {w : Worker α}
    (found : (c.put i changed).workers[j]? = some w) :
    (i = j ∧ w = changed.1) ∨ (i ≠ j ∧ c.workers[j]? = some w) :=
  setIfInBounds_found found

private theorem modify_found {workers : Array (Worker α)} {i : Nat} {w : Worker α}
    (found : workers[i]? = some w) (f : Worker α → Worker α) :
    workers.modify i f = workers.setIfInBounds i (f w) := by
  apply Array.ext_getElem?
  intro j
  rw [Array.getElem?_modify, Array.getElem?_setIfInBounds]
  split
  next same =>
    rw [← same, found, if_pos (Array.getElem?_eq_some_iff.mp found).1]
    rfl
  next => rfl

private theorem modify_unchanged {workers : Array (Worker α)} {i : Nat} {f : Worker α → Worker α}
    (deaf : ∀ w, workers[i]? = some w → f w = w) : workers.modify i f = workers := by
  apply Array.ext_getElem?
  intro j
  rw [Array.getElem?_modify]
  split
  next same =>
    subst same
    cases found : workers[i]? with
    | none => rfl
    | some w => rw [Option.map_some, deaf w found]
  next => rfl

theorem step_act {c : Crew α} {i : Nat} {w : Worker α} (found : c.workers[i]? = some w) :
    c.step (.act i) = c.put i (w.act c.shared) := by
  simp [step, put, found]

theorem step_hear {c : Crew α} {i : Nat} {w : Worker α} (found : c.workers[i]? = some w)
    (reaction : Reaction α) : c.step (.hear i reaction) = c.put i (w.hear reaction, c.shared) := by
  simp only [step, put, modify_found found]

/-- An event changes nothing, cancels the run, or lets one worker do a step or hear an answer. -/
theorem step_cases (c : Crew α) (event : Event α) :
    (c.step event = c ∧ c.answer? event = none) ∨
    (event = .cancel ∧ c.step event = { c with shared := { c.shared with cancelled := true } } ∧
      c.answer? event = none) ∨
    (∃ i w, event = .act i ∧ c.workers[i]? = some w ∧ c.answer? event = none ∧
      c.step event = c.put i (w.act c.shared)) ∨
    ∃ i w subquery reaction, event = .hear i reaction ∧ c.workers[i]? = some w ∧
      w.duty = .decide subquery ∧ c.answer? event = some ⟨i, subquery, reaction⟩ ∧
      c.step event = c.put i (w.hear reaction, c.shared) := by
  cases event with
  | cancel => exact .inr (.inl ⟨rfl, rfl, rfl⟩)
  | act i =>
    cases found : c.workers[i]? with
    | none => exact .inl ⟨by simp [step, found], rfl⟩
    | some w => exact .inr (.inr (.inl ⟨i, w, rfl, found, rfl, step_act found⟩))
  | hear i reaction =>
    by_cases waits : ∃ w subquery, c.workers[i]? = some w ∧ w.duty = .decide subquery
    · obtain ⟨w, subquery, found, duty⟩ := waits
      refine .inr (.inr (.inr ⟨i, w, subquery, reaction, rfl, found, duty, ?_, ?_⟩))
      · simp [answer?, found, duty, Duty.subject?]
      · exact step_hear found reaction
    · have deaf : ∀ w, c.workers[i]? = some w → w.duty.subject? = none ∧ w.hear reaction = w := by
        intro w found
        unfold Worker.hear
        cases duty : w.duty <;>
          first
          | exact ⟨rfl, rfl⟩
          | exact absurd ⟨w, _, found, duty⟩ waits
      refine .inl ⟨?_, ?_⟩
      · simp only [step, modify_unchanged fun w found => (deaf w found).2]
      · cases found : c.workers[i]? with
        | none => simp [answer?, found]
        | some w => simp [answer?, found, (deaf w found).1]

end Crew

namespace Worker

variable (w : Worker α) (s : Shared α)

theorem act_tally : (w.act s).1.tally = w.tally := by
  unfold act
  split <;> first | rfl | (split <;> rfl)

theorem act_abandoned : (w.act s).1.abandoned = w.abandoned := by
  unfold act
  split <;> first | rfl | (split <;> rfl)

theorem act_held : ((w.act s).2.queue.waiting ++ (w.act s).1.duty.held).Perm
    (s.queue.waiting ++ w.duty.held) := by
  unfold act
  split
  next duty =>
    rw [duty]
    dsimp only
    split <;> exact .refl _
  next duty =>
    rw [duty]
    cases shape : s.queue.waiting with
    | nil => simp [WorkQueue.pop?, shape, Duty.held]
    | cons first rest =>
      simp only [WorkQueue.pop?, shape, Duty.held, List.append_nil]
      exact List.perm_append_comm.trans (.refl _)
  next duty => rw [duty]; exact .refl _
  next duty => rw [duty]; simp [WorkQueue.extend, Duty.held]
  next duty =>
    rw [duty]
    dsimp only
    split <;> exact .refl _
  all_goals next duty => simp [duty, Duty.held]

theorem act_counted : (w.act s).2.unresolved + s.queue.size + w.duty.counted =
    s.unresolved + (w.act s).2.queue.size + (w.act s).1.duty.counted := by
  unfold act
  split
  next duty =>
    rw [duty]
    dsimp only
    split <;> rfl
  next duty =>
    rw [duty]
    cases shape : s.queue.waiting with
    | nil => simp [WorkQueue.pop?, shape, Duty.counted]
    | cons first rest =>
      simp only [WorkQueue.pop?, shape, Duty.counted, WorkQueue.size, List.length_cons]
      omega
  next duty =>
    rw [duty]
    simp only [Duty.counted]
    omega
  next duty =>
    rw [duty]
    simp only [Duty.counted, WorkQueue.extend, WorkQueue.size, List.length_append]
    omega
  next duty =>
    rw [duty]
    dsimp only
    split <;> simp only [Duty.counted] <;> omega
  all_goals next duty => simp [duty, Duty.counted]

theorem act_unresolved {w : Worker α} (idle : w.duty.counted = 0) :
    (w.act s).2.unresolved = s.unresolved := by
  unfold act
  split
  next duty => rfl
  next duty => split <;> rfl
  next duty =>
    rw [duty] at idle
    cases idle
  next duty => rfl
  next duty =>
    rw [duty] at idle
    cases idle
  all_goals rfl

theorem act_close {w : Worker α} {s : Shared α} (closes : (w.act s).1.duty = .close) :
    (w.act s).2.unresolved = 0 := by
  unfold act at closes ⊢
  split at closes
  next =>
    dsimp only at closes
    split at closes <;> cases closes
  next =>
    split at closes <;> cases closes
  next => cases closes
  next => cases closes
  next =>
    dsimp only at closes ⊢
    split at closes
    next last => omega
    next => cases closes
  next => cases closes
  next => cases closes
  all_goals next duty => rw [duty] at closes; cases closes

theorem act_report {w : Worker α} {s : Shared α} : (w.act s).1.duty ≠ .report := by
  intro reports
  unfold act at reports
  split at reports
  next =>
    dsimp only at reports
    split at reports <;> cases reports
  next =>
    split at reports <;> cases reports
  next => cases reports
  next => cases reports
  next =>
    dsimp only at reports
    split at reports <;> cases reports
  next => cases reports
  next => cases reports
  all_goals next duty => rw [duty] at reports; cases reports

variable {w} {subquery : Subquery α} (waits : w.duty = .decide subquery) (reaction : Reaction α)
include waits

theorem hear_held : (w.hear reaction).duty.held = reaction.offspring := by
  unfold hear
  rw [waits]
  cases reaction <;> rfl

theorem hear_abandoned : (w.hear reaction).abandoned =
    if reaction.settles then w.abandoned else subquery :: w.abandoned := by
  unfold hear
  rw [waits]
  cases reaction <;> rfl

theorem hear_counted :
    (w.hear reaction).duty.counted + (w.hear reaction).abandoned.length =
      w.duty.counted + w.abandoned.length := by
  unfold hear
  rw [waits]
  cases reaction <;> simp [Duty.counted] <;> omega

theorem hear_close : (w.hear reaction).duty ≠ .close := by
  unfold hear
  rw [waits]
  cases reaction <;> nofun

theorem hear_report (reports : (w.hear reaction).duty = .report) : reaction = .found := by
  unfold hear at reports
  rw [waits] at reports
  cases reaction <;> first | rfl | cases reports

theorem hear_foundSat (found : (w.hear reaction).tally.foundSat = true) :
    w.tally.foundSat = true ∨ reaction = .found ∧ (w.hear reaction).duty = .report := by
  unfold hear at found ⊢
  rw [waits] at found ⊢
  cases reaction with
  | found => exact .inr ⟨rfl, rfl⟩
  | resolved | divided | requeued | dropped | failed | crashed => exact .inl found

theorem hear_errors :
    (w.hear reaction).tally.errors = w.tally.errors + reaction.isFailure.toNat := by
  unfold hear
  rw [waits]
  cases reaction <;> rfl

end Worker

namespace Crew

variable {c : Crew α} {start : List (Subquery α)} {heard : List (Answer α)}

/-- The books of a run that began with some subqueries and heard some answers. -/
structure Ledger (start : List (Subquery α)) (heard : List (Answer α)) (c : Crew α) : Prop where
  /-- A subquery waits, is held, or was answered. -/
  complete : (c.shared.queue.waiting ++ c.held ++ heard.map (·.subquery)).Perm
    (start ++ heard.flatMap (·.reaction.offspring))
  lost : c.abandoned.Perm ((heard.filter (!·.reaction.settles)).map (·.subquery))
  counter : c.shared.unresolved = c.shared.queue.size + c.counted + c.abandoned.length
  failures : c.failures = heard.countP (·.reaction.isFailure)
  /-- Only the last subquery makes a worker close the run, and then nothing is left. -/
  closing : ∀ w ∈ c.workers, w.duty = .close → c.shared.unresolved = 0
  reporting : ∀ i w, c.workers[i]? = some w → w.duty = .report →
    ∃ subquery, ⟨i, subquery, .found⟩ ∈ heard

theorem Ledger.initial (workers : Nat) (start : List (Subquery α)) :
    (Crew.start workers start).Ledger start [] where
  complete := by
    simp [Crew.start, held, Worker.new, Duty.held, List.flatMap_replicate]
  lost := by simp [Crew.start, abandoned, Worker.new, List.flatMap_replicate]
  counter := by
    simp [Crew.start, counted, abandoned, Worker.new, Duty.counted, WorkQueue.size]
  failures := by simp [Crew.start, Crew.failures, Worker.new, Tally.zero]
  closing := by
    intro w member duty
    simp only [Crew.start, Array.mem_replicate] at member
    rw [member.2] at duty
    cases duty
  reporting := by
    intro i w found duty
    simp only [Crew.start, Array.getElem?_replicate] at found
    split at found
    · cases found
      cases duty
    · cases found

section Replaced

variable {w : Worker α} {others : List (Worker α)} (whole : c.workers.toList.Perm (w :: others))
include whole

theorem held_perm : c.held.Perm (w.duty.held ++ others.flatMap (·.duty.held)) :=
  whole.flatMap_right _

theorem abandoned_perm : c.abandoned.Perm (w.abandoned ++ others.flatMap (·.abandoned)) :=
  whole.flatMap_right _

theorem counted_eq : c.counted = w.duty.counted + (others.map (·.duty.counted)).sum :=
  (whole.map _).sum_eq

theorem failures_eq : c.failures = w.tally.errors + (others.map (·.tally.errors)).sum :=
  (whole.map _).sum_eq

end Replaced

namespace Ledger

theorem act (ledger : c.Ledger start heard) {i : Nat} {w : Worker α}
    (found : c.workers[i]? = some w) : (c.put i (w.act c.shared)).Ledger start heard := by
  classical
  obtain ⟨others, whole, changed⟩ := workers_perm found
  have whole' := changed (w.act c.shared)
  have idle : c.shared.unresolved = 0 → w.duty.counted = 0 := by
    intro zero
    have counter := ledger.counter
    rw [counted_eq whole] at counter
    omega
  refine ⟨?_, ?_, ?_, ?_, ?_, ?_⟩
  · refine List.Perm.trans (List.Perm.append_right _ ?_) ledger.complete
    have moved := w.act_held c.shared
    have before := held_perm whole
    have after := held_perm whole'
    rw [List.perm_iff_count] at moved before after ⊢
    intro subquery
    have moved := moved subquery
    have before := before subquery
    have after := after subquery
    simp only [List.count_append, put_shared] at *
    omega
  · refine List.Perm.trans ?_ ledger.lost
    refine (abandoned_perm whole').trans ?_
    rw [w.act_abandoned]
    exact (abandoned_perm whole).symm
  · have counter := ledger.counter
    have moved := w.act_counted c.shared
    rw [counted_eq whole, (abandoned_perm whole).length_eq, List.length_append] at counter
    rw [counted_eq whole', (abandoned_perm whole').length_eq, List.length_append, put_shared,
      w.act_abandoned]
    omega
  · rw [failures_eq whole', w.act_tally, ← failures_eq whole]
    exact ledger.failures
  · intro v member duty
    rcases List.mem_cons.mp (whole'.mem_iff.mp (Array.mem_toList_iff.mpr member)) with rfl | other
    · exact Worker.act_close duty
    · have zero := ledger.closing v
        (Array.mem_toList_iff.mp (whole.mem_iff.mpr (List.mem_cons_of_mem _ other))) duty
      exact (Worker.act_unresolved c.shared (idle zero)).trans zero
  · intro j v present duty
    rcases put_worker present with ⟨-, rfl⟩ | ⟨-, same⟩
    · exact absurd duty Worker.act_report
    · exact ledger.reporting j v same duty

theorem hear (ledger : c.Ledger start heard) {i : Nat} {w : Worker α} {subquery : Subquery α}
    (found : c.workers[i]? = some w) (waits : w.duty = .decide subquery) (reaction : Reaction α) :
    (c.put i (w.hear reaction, c.shared)).Ledger start (heard ++ [⟨i, subquery, reaction⟩]) := by
  classical
  obtain ⟨others, whole, changed⟩ := workers_perm found
  have whole' := changed (w.hear reaction, c.shared)
  refine ⟨?_, ?_, ?_, ?_, ?_, ?_⟩
  · have complete := ledger.complete
    have before := held_perm whole
    have after := held_perm whole'
    rw [waits] at before
    rw [Worker.hear_held waits] at after
    rw [List.perm_iff_count] at complete before after ⊢
    intro other
    have complete := complete other
    have before := before other
    have after := after other
    simp only [List.count_append, put_shared, List.map_append, List.flatMap_append, Duty.held,
      List.map_cons, List.map_nil, List.flatMap_cons, List.flatMap_nil, List.append_nil] at *
    omega
  · refine (abandoned_perm whole').trans ?_
    rw [Worker.hear_abandoned waits, List.filter_append, List.map_append]
    have lost := (abandoned_perm whole).symm.trans ledger.lost
    cases settled : reaction.settles with
    | true => simpa [settled] using lost
    | false =>
      simp only [settled, Bool.false_eq_true, if_false, List.cons_append, Bool.not_false,
        List.filter_cons_of_pos, List.filter_nil, List.map_cons, List.map_nil]
      exact (lost.cons subquery).trans (List.perm_append_singleton _ _).symm
  · have counter := ledger.counter
    have moved := Worker.hear_counted waits reaction
    rw [counted_eq whole, (abandoned_perm whole).length_eq, List.length_append] at counter
    rw [counted_eq whole', (abandoned_perm whole').length_eq, List.length_append, put_shared]
    dsimp only
    omega
  · have failures := ledger.failures
    rw [failures_eq whole] at failures
    rw [failures_eq whole', List.countP_append, Worker.hear_errors waits]
    simp only [List.countP_cons, List.countP_nil]
    cases reaction.isFailure <;> simp at * <;> omega
  · intro v member duty
    rcases List.mem_cons.mp (whole'.mem_iff.mp (Array.mem_toList_iff.mpr member)) with rfl | other
    · exact absurd duty (Worker.hear_close waits reaction)
    · exact ledger.closing v
        (Array.mem_toList_iff.mp (whole.mem_iff.mpr (List.mem_cons_of_mem _ other))) duty
  · intro j v present duty
    rcases put_worker present with ⟨rfl, rfl⟩ | ⟨-, same⟩
    · rw [Worker.hear_report waits reaction duty]
      exact ⟨subquery, by simp⟩
    · obtain ⟨other, member⟩ := ledger.reporting j v same duty
      exact ⟨other, List.mem_append_left _ member⟩

theorem step (ledger : c.Ledger start heard) (event : Event α) :
    (c.step event).Ledger start (heard ++ (c.answer? event).toList) := by
  rcases c.step_cases event with ⟨same, none⟩ | ⟨-, same, none⟩ | ⟨i, w, -, found, none, same⟩ |
    ⟨i, w, subquery, reaction, -, found, waits, answer, same⟩
  · rw [same, none, Option.toList_none, List.append_nil]
    exact ledger
  · rw [same, none, Option.toList_none, List.append_nil]
    exact ⟨ledger.complete, ledger.lost, ledger.counter, ledger.failures, ledger.closing,
      ledger.reporting⟩
  · rw [same, none, Option.toList_none, List.append_nil]
    exact ledger.act found
  · rw [same, answer, Option.toList_some]
    exact ledger.hear found waits reaction

theorem run (ledger : c.Ledger start heard) (events : List (Event α)) :
    (c.run events).Ledger start (heard ++ c.answers events) := by
  induction events generalizing c heard with
  | nil => simpa [Crew.run, answers] using ledger
  | cons event rest ih =>
    rw [answers, ← List.append_assoc]
    exact ih (ledger.step event)

end Ledger

/-- The books of a run are kept in every state that it can reach. -/
theorem ledger_run (workers : Nat) (start : List (Subquery α)) (events : List (Event α)) :
    ((Crew.start workers start).run events).Ledger start ((Crew.start workers start).answers events) := by
  simpa using (Ledger.initial workers start).run events

end Crew

end ReluSolver
