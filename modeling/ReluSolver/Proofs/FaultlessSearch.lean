import ReluSolver.Proofs.CheckpointRestore
import ReluSolver.Proofs.DivisionParts
import ReluSolver.Proofs.FaultlessCandidates
import ReluSolver.Search.Tree

/-! A search keeps one open checkpoint for each frame of its stack: where it visits a
node, where it starts to come back, and while it does. So it never closes a checkpoint
that is not open, and it never imposes a phase that is not one. -/

namespace ReluSolver

/-- A frame is about a ReLU of the query, and what is left of it can be imposed. -/
def Frame.Fits {α : Type} (q : Query α) (frame : Frame) : Prop :=
  frame.relu < q.relus.length ∧ frame.remaining ≠ some .unfixed

/-- The store has the variables of a query, and one open checkpoint per frame. What closing a
checkpoint puts back is about these variables. -/
structure Store.Carries {α : Type} (q : Query α) (frames : List Frame) (s : Store α) : Prop where
  size_eq : s.size = q.size
  depth : s.depth = frames.length
  logged : ∀ entries ∈ s.trail.frames, ∀ e ∈ entries, e.var < q.size
  frames : ∀ frame ∈ frames, frame.Fits q

namespace Store.Carries

variable {α : Type} {q : Query α} {frames outer : List Frame} {s : Store α}

theorem pushCheckpoint (carries : s.Carries q frames) {frame : Frame} (fits : frame.Fits q) :
    s.pushCheckpoint.Carries q (frame :: frames) := by
  refine ⟨carries.size_eq, ?_, ?_, List.forall_mem_cons.mpr ⟨fits, carries.frames⟩⟩
  · rw [List.length_cons, ← carries.depth]
    rfl
  · exact List.forall_mem_cons.mpr ⟨List.forall_mem_nil _, carries.logged⟩

theorem popCheckpoint {frame : Frame} (carries : s.Carries q (frame :: outer)) :
    ∃ popped, s.popCheckpoint = .ok popped ∧ popped.Carries q outer := by
  obtain ⟨cells, ⟨opened⟩, observer, tolerance⟩ := s
  cases opened with
  | nil => cases carries.depth
  | cons entries below =>
    refine ⟨_, rfl, ?_, ?_, ?_, fun other member => carries.frames other (by simp [member])⟩
    · rw [foldl_undo]
      exact (size_foldl_undoCell _ _).trans carries.size_eq
    · rw [foldl_undo]
      exact Nat.succ.inj carries.depth
    · rw [foldl_undo]
      exact fun other member => carries.logged other (List.mem_cons_of_mem _ member)

variable [Scalar α]

theorem place (carries : s.Carries q frames) (t : Tightening α) (known : t.var < s.cells.size) :
    (s.place t known).2.Carries q frames := by
  rcases place_cases s t known with ⟨-, same⟩ | ⟨observer, -, same⟩
  · rw [same]
    exact carries
  · rw [same]
    refine ⟨?_, ?_, ?_, carries.frames⟩
    · simpa [Store.size] using carries.size_eq
    · simpa [Store.depth] using carries.depth
    · have entered : t.var < q.size := Nat.lt_of_lt_of_eq known carries.size_eq
      have logged := carries.logged
      dsimp only [Trail.record]
      cases opened : s.trail.frames with
      | nil => simpa only [opened] using logged
      | cons entries below =>
        rw [opened] at logged
        obtain ⟨inner, others⟩ := List.forall_mem_cons.mp logged
        exact List.forall_mem_cons.mpr ⟨List.forall_mem_cons.mpr ⟨entered, inner⟩, others⟩

theorem tightened (carries : s.Carries q frames) {last : Store α} (tightened : s.Tightened last) :
    last.Carries q frames := by
  induction tightened with
  | refl => exact carries
  | place _ t known ih => exact ih.place t known

theorem step {β : Type} {action : Store.Action Fault α β}
    (total : Returns (fun s => s.size = q.size) action fun _ last => last.size = q.size)
    (tightens : ∀ start, Preserves (Store.Tightened start) action) :
    Returns (Store.Carries q frames) action fun _ => Store.Carries q frames := by
  intro s carries
  obtain ⟨value, last, run, -⟩ := total.run carries.size_eq
  rw [run]
  exact carries.tightened ((tightens s).ok .refl run)

end Store.Carries

abbrev Session.Balanced {α : Type} (q : Query α) (s : Session α) : Prop := s.store.Carries q s.stack

namespace Problem

open Extended Searching

variable {p : Problem Extended}

theorem observe_returns {β : Type} {f : Store Extended → Except Fault β} {pre : Session Extended → Prop}
    {post : β → Session Extended → Prop} {stuck : Abort → Session Extended → Prop}
    (total : ∀ s, pre s → ∃ value, f s.store = .ok value ∧ post value s) :
    Ends pre (observe f) post stuck := by
  apply Ends.get_bind
  intro s holds
  obtain ⟨value, run, kept⟩ := total s holds
  rw [run]
  exact .pure fun _ same => same ▸ kept

theorem count_balanced (change : SearchStatistics → SearchStatistics) :
    Ends (Session.Balanced p.query) (count change) (fun _ => Session.Balanced p.query)
      fun cause _ => cause.IsFailure :=
  .modifyGet fun _ balanced => balanced

section Nodes

variable (knows : p.query.Knows p.basis p.derived)
include knows

theorem propagateNode_balanced : Ends (Session.Balanced p.query) p.propagateNode
    (fun _ => Session.Balanced p.query) fun cause _ => cause.IsFailure := by
  intro s balanced
  have kept := p.effort.propagate_tightened s.store p.query.equations p.derived p.query.relus
    s.store .refl
  have ends := p.effort.propagateQuery_faultless p.query knows.derived s.store balanced.size_eq
  unfold propagateNode
  unfold Effort.propagateQuery at ends ⊢
  cases run : p.effort.propagate p.query.equations p.derived p.query.relus s.store with
  | ok news last =>
    rw [run] at kept
    exact balanced.tightened kept
  | error cause last =>
    rw [run] at kept ends
    obtain rfl := ends
    exact balanced.tightened kept

theorem visitNode_balanced : Ends (Session.Balanced p.query) p.visitNode
    (fun outcome s => s.Balanced p.query ∧
      ∀ relu, outcome = .branch relu → relu < p.query.relus.length)
    fun cause _ => cause.IsFailure := by
  apply (count_balanced _).bind
  intro _
  apply (propagateNode_balanced knows).bind
  intro goesOn
  cases goesOn with
  | false => exact .pure fun _ balanced => ⟨balanced, by simp⟩
  | true =>
    apply Ends.from_state
    intro s balanced
    apply (findSolution_faultless knows balanced.size_eq).bind
    intro found
    have kept : ∀ last, s.SameTree last → last.Balanced p.query := by
      intro last same
      rw [Session.Balanced, same.store, same.stack]
      exact balanced
    cases found with
    | some values => exact .pure fun last same => ⟨kept last same, by simp⟩
    | none =>
      apply Ends.through fun chosen s => s.Balanced p.query ∧
        ∀ relu ∈ chosen, relu < p.query.relus.length
      · refine observe_returns fun last same => ?_
        obtain ⟨chosen, selected, inside⟩ := p.heuristic.select_total (kept last same).size_eq
          p.effort.tolerance
        exact ⟨chosen, selected, kept last same, inside⟩
      intro chosen
      cases chosen with
      | some relu =>
        refine .pure fun _ both => ⟨both.1, fun other branched => ?_⟩
        exact NodeOutcome.branch.inj branched ▸ both.2 relu rfl
      | none =>
        apply ((count_balanced _).strengthen fun _ both => both.1).bind
        intro _
        refine Ends.through (fun _ => Session.Balanced p.query) (.modifyGet fun _ kept => kept) ?_
        exact fun _ => .pure fun _ balanced => ⟨balanced, by simp⟩

end Nodes

section Phases

variable {stack frames outer : List Frame}

theorem onStore_carries {ts : List (Tightening Extended)} (known : ∀ t ∈ ts, t.var < p.query.size) :
    Ends (fun s => s.stack = stack ∧ s.store.Carries p.query frames) (onStore (Store.tightenAll ts))
      (fun _ s => s.stack = stack ∧ s.store.Carries p.query frames)
      fun cause _ => cause.IsFailure := by
  rintro s ⟨same, carries⟩
  obtain ⟨outcome, last, run, kept⟩ := (Store.Carries.step (Store.tightenAll_total known)
    fun start => Store.tightenAll_tightened start ts).run carries
  simp only [onStore, run]
  exact ⟨same, kept⟩

theorem enterPhase_carries {frame : Frame} (fits : frame.Fits p.query) {phase : Phase}
    (fixed : phase ≠ .unfixed) :
    Ends (fun s => s.stack = stack ∧ s.store.Carries p.query frames) (p.enterPhase frame.relu phase)
      (fun _ s => s.stack = stack ∧ s.store.Carries p.query (frame :: frames))
      fun cause _ => cause.IsFailure := by
  apply Ends.through fun _ s => s.stack = stack ∧ s.store.Carries p.query (frame :: frames)
  · exact .modifyGet fun _ both => ⟨both.1, both.2.pushCheckpoint fits⟩
  intro _
  obtain ⟨r, read, member⟩ : ∃ r, p.query.relu frame.relu = .ok r ∧ r ∈ p.query.relus :=
    ⟨_, relu_eq_ok.mpr (List.getElem?_eq_getElem fits.1), List.getElem_mem _⟩
  obtain ⟨input, output⟩ := p.query.relus_known r member
  obtain ⟨split, made, known⟩ : ∃ split : CaseSplit Extended, r.phaseSplit phase = .ok split ∧
      ∀ t ∈ split.tightenings, t.var < p.query.size := by
    cases phase with
    | active => exact ⟨_, rfl, by simp [Tightening.lower, input, output]⟩
    | inactive => exact ⟨_, rfl, by simp [Tightening.upper, input, output]⟩
    | unfixed => exact absurd rfl fixed
  apply ofFault_ok read
  apply ofFault_ok made
  apply (onStore_carries known).bind
  intro outcome
  split
  · exact Ends.through (fun _ s => s.stack = stack ∧ s.store.Carries p.query (frame :: frames))
      (.modifyGet fun _ both => both) fun _ => .pure fun _ both => both
  · exact .pure fun _ both => both

theorem closeCheckpoint_carries {frame : Frame} :
    Ends (fun s => s.store.Carries p.query (frame :: outer)) (closeCheckpoint : Searching Extended Unit)
      (fun _ s => s.store.Carries p.query outer) fun cause _ => cause.IsFailure := by
  apply Ends.through fun popped _ => popped.Carries p.query outer
  · exact observe_returns fun _ carries => carries.popCheckpoint
  · exact fun _ => .modifyGet fun _ carries => carries

theorem backtrackFrom_balanced (frames : List Frame) :
    Ends (fun s => s.store.Carries p.query frames) (p.backtrackFrom frames)
      (fun _ => Session.Balanced p.query) fun cause _ => cause.IsFailure := by
  induction frames with
  | nil =>
    exact Ends.through (fun _ => Session.Balanced p.query) (.modifyGet fun _ carries => carries)
      fun _ => .pure fun _ balanced => balanced
  | cons frame outer ih =>
    apply Ends.from_state
    intro s carries
    obtain ⟨listed, fixed⟩ := carries.frames frame (by simp)
    apply (closeCheckpoint_carries.here carries).bind
    intro _
    split
    next => exact ih
    next phase left =>
      have entered : Ends (fun s => s.store.Carries p.query outer) (p.enterPhase frame.relu phase)
          (fun _ s => s.store.Carries p.query (⟨frame.relu, none⟩ :: outer))
          fun cause _ => cause.IsFailure := by
        refine .from_state fun s carries => ?_
        have fits : (⟨frame.relu, none⟩ : Frame).Fits p.query := ⟨listed, by simp⟩
        exact ((enterPhase_carries fits fun same => fixed (same ▸ left)).here ⟨rfl, carries⟩).mono
          fun _ _ both => both.2
      apply entered.bind
      intro entered
      cases entered with
      | true =>
        exact Ends.through (fun _ => Session.Balanced p.query) (.modifyGet fun _ carries => carries)
          fun _ => .pure fun _ balanced => balanced
      | false => exact closeCheckpoint_carries.bind fun _ => ih

theorem backtrack_balanced : Ends (Session.Balanced p.query) p.backtrack
    (fun _ => Session.Balanced p.query) fun cause _ => cause.IsFailure :=
  Ends.get_bind fun s balanced => (backtrackFrom_balanced s.stack).here balanced

end Phases

section Steps

/-- Opens a frame for a ReLU and enters its likelier phase; `false` if that is infeasible. -/
def openFrame (p : Problem Extended) (relu : Nat) : Searching Extended Bool := do
  let r ← ofFault (p.query.relu relu)
  let bounds ← observe (·.interval r.b)
  let (first, second) : Phase × Phase :=
    if bounds.polarity < 0 then (.inactive, .active) else (.active, .inactive)
  modify fun s =>
    let stack := ⟨relu, some second⟩ :: s.stack
    let n := s.statistics
    { s with stack := stack, statistics := { n with maxDepth := max n.maxDepth stack.length } }
  p.enterPhase relu first

theorem branch_eq (relu : Nat) : p.branch relu = (do
    if ← p.openFrame relu then return true
    p.backtrack) := by
  simp only [branch, openFrame, bind_assoc]

/-- Visits a node and goes below it if it is branched on. Gives how the step ends, or `none` where the
search starts to come back. -/
def descend (p : Problem Extended) : Searching Extended (Option (Option (Ending Extended))) := do
  match ← p.visitNode with
  | .satisfied values => return some (some (.satisfied values))
  | .branch relu => return if ← p.openFrame relu then some none else none
  | .conflict | .inconclusive => return none

/-- Comes back to a phase that is left; gives the ending if there is none. -/
def comeBack (p : Problem Extended) : Searching Extended (Option (Ending Extended)) := do
  if ← p.backtrack then return none
  return some (if (← get).inconclusive then .undecided else .exhausted)

/-- A step goes down first, and comes back from there unless it has ended. -/
theorem visitNode_proceed : (p.visitNode >>= p.proceed) = (do
    match ← p.descend with
    | some ending => return ending
    | none => p.comeBack) := by
  simp only [descend, bind_assoc]
  congr 1
  funext outcome
  cases outcome with
  | satisfied values => simp only [proceed, pure_bind]
  | branch relu =>
    simp only [proceed, branch_eq, comeBack, bind_assoc, pure_bind]
    congr 1
    funext entered
    cases entered <;> simp
  | conflict => simp only [proceed, comeBack, pure_bind]
  | inconclusive => simp only [proceed, comeBack, pure_bind]

theorem openFrame_balanced {relu : Nat} (listed : relu < p.query.relus.length) :
    Ends (Session.Balanced p.query) (p.openFrame relu) (fun _ => Session.Balanced p.query)
      fun cause _ => cause.IsFailure := by
  have read : p.query.relu relu = .ok p.query.relus[relu] :=
    relu_eq_ok.mpr (List.getElem?_eq_getElem listed)
  obtain ⟨input, -⟩ := p.query.relus_known _ (List.getElem_mem listed)
  apply ofFault_ok read
  apply Ends.through fun _ => Session.Balanced p.query
  · refine observe_returns fun s balanced => ?_
    obtain ⟨bounds, held, -⟩ := s.store.interval_total balanced.size_eq input
    exact ⟨bounds, held, balanced⟩
  intro bounds
  obtain ⟨first, second, order, fixed, left⟩ : ∃ first second : Phase,
      (if bounds.polarity < 0 then (Phase.inactive, Phase.active) else (.active, .inactive)) =
        (first, second) ∧ first ≠ .unfixed ∧ second ≠ .unfixed := by
    split <;> exact ⟨_, _, rfl, by simp, by simp⟩
  rw [order]
  refine .from_state fun s balanced => ?_
  apply Ends.through fun _ t => t.stack = ⟨relu, some second⟩ :: s.stack ∧
    t.store.Carries p.query s.stack
  · refine .modifyGet ?_
    rintro _ rfl
    exact ⟨rfl, balanced⟩
  intro _
  have fits : (⟨relu, some second⟩ : Frame).Fits p.query := ⟨listed, by simpa using left⟩
  refine (enterPhase_carries fits fixed).mono fun _ t both => ?_
  rw [Session.Balanced, both.1]
  exact both.2

variable (knows : p.query.Knows p.basis p.derived)
include knows

theorem descend_balanced : Ends (Session.Balanced p.query) p.descend
    (fun _ => Session.Balanced p.query) fun cause _ => cause.IsFailure := by
  apply (visitNode_balanced knows).bind
  intro outcome
  cases outcome with
  | branch relu =>
    refine .from_state fun s both => ?_
    exact ((openFrame_balanced (both.2 relu rfl)).here both.1).bind fun _ =>
      .pure fun _ balanced => balanced
  | satisfied values => exact .pure fun _ both => both.1
  | conflict | inconclusive => exact .pure fun _ both => both.1

/-- A step of a search breaks no call. -/
theorem advance_balanced (signals : Signals) : Ends (Session.Balanced p.query) (p.advance signals)
    (fun _ => Session.Balanced p.query) fun cause _ => cause.IsFailure := by
  apply Ends.through fun _ => Session.Balanced p.query
  · exact .modifyGet fun _ balanced => balanced
  intro _
  apply Ends.get_bind
  intro s balanced
  split
  · exact .pure fun _ same => same ▸ balanced
  · rw [visitNode_proceed]
    apply ((descend_balanced knows).here balanced).bind
    intro reached
    cases reached with
    | some ending => exact .pure fun _ balanced => balanced
    | none =>
      apply backtrack_balanced.bind
      intro goesOn
      cases goesOn with
      | true => exact .pure fun _ balanced => balanced
      | false => exact Ends.get_bind fun _ balanced => .pure fun _ same => same ▸ balanced

end Steps

end Problem

end ReluSolver
