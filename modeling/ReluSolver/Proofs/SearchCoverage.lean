import ReluSolver.Proofs.CandidateSearch
import ReluSolver.Proofs.PropagationSoundness
import ReluSolver.Search.Tree

/-! No step of the depth-first search loses a solution: it stays within the current
bounds, or below a branch whose other phase is still to be searched, unless some leaf
was left undecided. An exhausted search has therefore shown that there is none. -/

namespace ReluSolver

open Extended Searching

/-- The assignment respects the bounds under which a frame was opened, and it is on the side that is
still to be searched. -/
def Frame.Awaits (q : Query Extended) (x : Variable → ℚ) (frame : Frame)
    (below : Array (Cell Extended)) : Prop :=
  Store.CellsAdmit below x ∧
    ∃ phase r, frame.remaining = some phase ∧ q.relus[frame.relu]? = some r ∧ r.OnSide x phase

/-- Some frame awaits the assignment. The bounds that were saved for a frame stand at its place. -/
def Awaited (q : Query Extended) (x : Variable → ℚ) :
    List Frame → List (Array (Cell Extended)) → Prop
  | frame :: outer, below :: rest => frame.Awaits q x below ∨ Awaited q x outer rest
  | _, _ => False

namespace Session

/-- All bounds, also the saved ones, are about the same number of variables. -/
structure Ready (size : Nat) (s : Session Extended) : Prop where
  size_eq : s.store.cells.size = size
  tolerance : 0 ≤ s.store.tolerance.epsilon
  saved : ∀ cells ∈ s.store.saved, cells.size = size

/-- The search can still come to the assignment after it leaves the current node. -/
def Pending (q : Query Extended) (x : Variable → ℚ) (s : Session Extended) : Prop :=
  s.inconclusive = true ∨ Awaited q x s.stack s.store.saved

def Open (q : Query Extended) (x : Variable → ℚ) (s : Session Extended) : Prop :=
  Store.CellsAdmit s.store.cells x ∨ s.Pending q x

theorem SameTree.ready {first second : Session Extended} (same : first.SameTree second) {size : Nat}
    (ready : first.Ready size) : second.Ready size := by
  have store := same.store
  exact ⟨store ▸ ready.size_eq, store ▸ ready.tolerance, store ▸ ready.saved⟩

theorem SameTree.open_iff {first second : Session Extended} (same : first.SameTree second)
    {q : Query Extended} {x : Variable → ℚ} : second.Open q x ↔ first.Open q x := by
  rw [Open, Open, Pending, Pending, same.store, same.stack, same.inconclusive]

end Session

namespace Problem

variable (p : Problem Extended) (x : Variable → ℚ)

/-- The assignment satisfies everything that a search may use. -/
structure SolvedBy : Prop where
  precise : p.effort.tolerance.epsilon = 0
  equations : Effort.Satisfied p.query.size x p.query.equations
  derived : Effort.Satisfied p.query.size x p.derived
  relus : ∀ r ∈ p.query.relus, r.Holds x

/-- A node under way: the assignment is not lost yet. -/
def Alive (s : Session Extended) : Prop := s.Ready p.query.size ∧ s.Open p.query x

def Left (s : Session Extended) : Prop := s.Ready p.query.size ∧ s.Pending p.query x

/-- Where the assignment is after a visit of a node. -/
def Visited (outcome : NodeOutcome Extended) (s : Session Extended) : Prop :=
  match outcome with
  | .satisfied _ => True
  | .branch _ => p.Alive x s
  | .conflict | .inconclusive => p.Left x s

/-- Where the assignment is after a step of the search; the search does not end exhausted. -/
def Reached (ending : Option (Ending Extended)) (s : Session Extended) : Prop :=
  match ending with
  | none => p.Alive x s
  | some .exhausted => False
  | some _ => True

variable {p x}

/-- A conflict means that the assignment is not within the current bounds. -/
theorem propagateNode_covers (solved : p.SolvedBy x) :
    Ends (p.Alive x) p.propagateNode (fun goesOn => if goesOn then p.Alive x else p.Left x)
      fun _ _ => True := by
  rintro s ⟨ready, isOpen⟩
  have kept := Effort.propagate_tightened p.effort s.store p.query.equations p.derived p.query.relus
    s.store .refl
  have encloses : Store.CellsAdmit s.store.cells x → ∃ news last,
      p.effort.propagateQuery p.query p.derived s.store = .ok news last ∧
        last.Encloses p.query.size x := fun admits =>
    (Effort.propagate_encloses solved.precise solved.equations solved.derived solved.relus
      p.query.relus_known).run ⟨ready.size_eq, ready.tolerance, admits⟩
  have after : ∀ last : Store Extended, s.store.Tightened last →
      last.cells.size = p.query.size ∧ 0 ≤ last.tolerance.epsilon ∧ last.saved = s.store.saved :=
    fun last tightened =>
      ⟨tightened.size_eq.trans ready.size_eq, tightened.tolerance_eq ▸ ready.tolerance,
        tightened.saved_eq⟩
  unfold propagateNode
  unfold Effort.propagateQuery at encloses ⊢
  cases run : p.effort.propagate p.query.equations p.derived p.query.relus s.store with
  | ok news last =>
    rw [run] at kept
    obtain ⟨size, tolerance, saved⟩ := after last kept
    refine ⟨⟨size, tolerance, by rw [saved]; exact ready.saved⟩, ?_⟩
    rcases isOpen with admits | pending
    · obtain ⟨_, other, same, inside⟩ := encloses admits
      rw [run] at same
      cases same
      exact .inl inside.admits
    · refine .inr ?_
      rw [Session.Pending, saved]
      exact pending
  | error cause last =>
    rw [run] at kept
    obtain ⟨size, tolerance, saved⟩ := after last kept
    cases cause with
    | conflict =>
      refine ⟨⟨size, tolerance, by rw [saved]; exact ready.saved⟩, ?_⟩
      rcases isOpen with admits | pending
      · obtain ⟨_, other, same, -⟩ := encloses admits
        rw [run] at same
        cases same
      · rw [Session.Pending, saved]
        exact pending
    | factorization | fault => trivial

theorem visitNode_covers (solved : p.SolvedBy x) :
    Ends (p.Alive x) p.visitNode (p.Visited x) fun _ _ => True := by
  have counted : Ends (p.Alive x) (count fun n => { n with nodes := n.nodes + 1 })
      (fun _ => p.Alive x) fun (_ : Abort) _ => True :=
    .modifyGet fun s alive => ⟨⟨alive.1.size_eq, alive.1.tolerance, alive.1.saved⟩, alive.2⟩
  apply counted.bind
  intro _
  apply (propagateNode_covers solved).bind
  intro goesOn
  cases goesOn with
  | false => exact .pure fun _ left => left
  | true =>
    apply Ends.from_state
    intro s alive
    apply ((findSolution_keeps p s).here (.refl s)).weaken (fun _ same => same) (fun _ _ kept => kept)
      (fun _ _ _ => trivial) |>.bind
    intro found
    cases found with
    | some values => exact .pure fun _ _ => trivial
    | none =>
      apply (observe_ends fun _ _ _ => trivial).bind
      intro chosen
      apply Ends.from_state
      rintro last ⟨⟨same, -⟩, -⟩
      have ready := same.ready alive.1
      cases chosen with
      | some relu => exact .pure fun _ equal => equal ▸ ⟨ready, same.open_iff.mpr alive.2⟩
      | none =>
        apply Ends.through fun _ s => s.Ready p.query.size
        · exact .modifyGet fun _ equal => equal ▸ ⟨ready.size_eq, ready.tolerance, ready.saved⟩
        intro _
        apply Ends.through fun _ s => p.Left x s
        · exact .modifyGet fun s ready => ⟨⟨ready.size_eq, ready.tolerance, ready.saved⟩, .inl rfl⟩
        · exact fun _ => .pure fun _ left => left

/-- What opening a checkpoint and entering a phase makes of a session. -/
structure Entered (p : Problem Extended) (x : Variable → ℚ) (before : Session Extended)
    (relu : Nat) (phase : Phase) (entered : Bool) (s : Session Extended) : Prop where
  ready : s.Ready p.query.size
  stack : s.stack = before.stack
  inconclusive : s.inconclusive = before.inconclusive
  saved : s.store.saved = before.store.cells :: before.store.saved
  /-- A phase that the assignment is in can be entered. -/
  admits : Store.CellsAdmit before.store.cells x →
    (∃ r, p.query.relus[relu]? = some r ∧ r.OnSide x phase) →
    entered = true ∧ Store.CellsAdmit s.store.cells x

theorem phaseSplit_holds {r : Relu} (holds : r.Holds x) {phase : Phase} {split : CaseSplit Extended}
    (made : r.phaseSplit phase = .ok split) (side : r.OnSide x phase) : split.Holds x := by
  cases phase with
  | active =>
    cases made
    intro t member
    rcases List.mem_pair.mp member with rfl | rfl
    · exact zero_eq ▸ le_finite.mpr side
    · exact zero_eq ▸ le_finite.mpr holds.nonneg
  | inactive =>
    cases made
    intro t member
    rcases List.mem_pair.mp member with rfl | rfl
    · exact zero_eq ▸ le_finite.mpr side
    · exact zero_eq ▸ le_finite.mpr (holds.eq_zero side).le
  | unfixed => cases made

theorem relu_eq_ok {q : Query Extended} {index : Nat} {r : Relu} :
    q.relu index = .ok r ↔ q.relus[index]? = some r := by
  unfold Query.relu
  cases q.relus[index]? with
  | none => exact ⟨nofun, nofun⟩
  | some other => simp

theorem onStore_tightenAll {size : Nat} {before : Session Extended} (ready : before.Ready size)
    {ts : List (Tightening Extended)} :
    Ends (· = before) (onStore (Store.tightenAll ts))
      (fun outcome s => s.Ready size ∧ s.stack = before.stack ∧
        s.inconclusive = before.inconclusive ∧ s.store.saved = before.store.saved ∧
        (Store.CellsAdmit before.store.cells x → (∀ t ∈ ts, t.Holds x) →
          outcome ≠ .infeasible ∧ Store.CellsAdmit s.store.cells x))
      fun _ _ => True := by
  intro start same
  rw [same]
  have kept := Store.tightenAll_tightened before.store ts before.store .refl
  unfold onStore
  cases run : Store.tightenAll ts before.store with
  | error => trivial
  | ok outcome last =>
    rw [run] at kept
    refine ⟨⟨?_, ?_, ?_⟩, rfl, rfl, kept.saved_eq, fun admits hold => ?_⟩
    · exact kept.size_eq.trans ready.size_eq
    · exact kept.tolerance_eq ▸ ready.tolerance
    · exact kept.saved_eq ▸ ready.saved
    · have inside := (Store.tightenAll_encloses hold).ok ⟨ready.size_eq, ready.tolerance, admits⟩ run
      exact ⟨inside.1, inside.2.admits⟩

theorem enterPhase_covers (hold : ∀ r ∈ p.query.relus, r.Holds x) {before : Session Extended}
    (ready : before.Ready p.query.size) (relu : Nat) (phase : Phase) :
    Ends (· = before) (p.enterPhase relu phase) (Entered p x before relu phase)
      fun _ _ => True := by
  let pushed : Session Extended := { before with store := before.store.pushCheckpoint }
  have pushedReady : pushed.Ready p.query.size := by
    refine ⟨ready.size_eq, ready.tolerance, ?_⟩
    intro cells member
    rw [Store.saved_pushCheckpoint] at member
    rcases List.mem_cons.mp member with rfl | outer
    · exact ready.size_eq
    · exact ready.saved cells outer
  apply Ends.through fun _ s => s = pushed
  · exact .modifyGet fun s same => same ▸ rfl
  intro _
  apply (ofFault_ends fun _ _ _ => trivial).bind
  intro r
  apply (ofFault_ends fun _ _ _ => trivial).bind
  intro split
  apply Ends.from_state
  rintro _ ⟨⟨rfl, found⟩, made⟩
  apply (onStore_tightenAll (x := x) pushedReady).bind
  intro outcome
  have settled : ∀ s : Session Extended, s.Ready p.query.size ∧ s.stack = pushed.stack ∧
      s.inconclusive = pushed.inconclusive ∧ s.store.saved = pushed.store.saved ∧
      (Store.CellsAdmit pushed.store.cells x → (∀ t ∈ split.tightenings, t.Holds x) →
        outcome ≠ .infeasible ∧ Store.CellsAdmit s.store.cells x) →
      Entered p x before relu phase (!outcome.isInfeasible) s := by
    rintro s ⟨last, stack, inconclusive, saved, admits⟩
    refine ⟨last, stack, inconclusive, saved, fun inside ⟨other, same, side⟩ => ?_⟩
    obtain rfl : r = other := Option.some.inj ((relu_eq_ok.mp found).symm.trans same)
    have holds := hold r (List.mem_of_getElem? (relu_eq_ok.mp found))
    obtain ⟨feasible, contained⟩ := admits inside (phaseSplit_holds holds made side)
    exact ⟨by cases outcome <;> first | rfl | exact absurd rfl feasible, contained⟩
  split
  · apply Ends.through fun _ s => Entered p x before relu phase (!outcome.isInfeasible) s
    · refine .modifyGet fun s kept => ?_
      have entered := settled s kept
      exact ⟨⟨entered.ready.size_eq, entered.ready.tolerance, entered.ready.saved⟩,
        entered.stack, entered.inconclusive, entered.saved, entered.admits⟩
    · exact fun _ => .pure fun _ entered => entered
  · exact .pure settled

theorem closeCheckpoint_covers {size : Nat} {before : Session Extended} (ready : before.Ready size) :
    Ends (· = before) (closeCheckpoint : Searching Extended Unit)
      (fun _ s => s.Ready size ∧ s.stack = before.stack ∧ s.inconclusive = before.inconclusive ∧
        before.store.saved = s.store.cells :: s.store.saved)
      fun _ _ => True := by
  apply (observe_ends fun _ _ _ => trivial).bind
  intro store
  refine .modifyGet ?_
  rintro _ ⟨rfl, popped⟩
  obtain ⟨saved, tolerance, -⟩ := Store.saved_of_popCheckpoint popped
  have known := ready.saved
  rw [saved] at known
  refine ⟨⟨known _ (by simp), tolerance ▸ ready.tolerance, ?_⟩, rfl, rfl, saved⟩
  exact fun cells member => known cells (List.mem_cons_of_mem _ member)

/-- Coming back finds the way to the assignment, or knows that a leaf was left undecided. -/
theorem backtrackFrom_covers (hold : ∀ r ∈ p.query.relus, r.Holds x) (frames : List Frame) :
    Ends (fun s => s.Ready p.query.size ∧
        (s.inconclusive = true ∨ Awaited p.query x frames s.store.saved))
      (p.backtrackFrom frames)
      (fun goesOn s => if goesOn then p.Alive x s else s.inconclusive = true)
      fun _ _ => True := by
  induction frames with
  | nil =>
    apply Ends.through fun _ s => s.inconclusive = true
    · refine .modifyGet ?_
      rintro s ⟨-, inconclusive | awaited⟩
      · exact inconclusive
      · simp [Awaited] at awaited
    · exact fun _ => .pure fun _ inconclusive => inconclusive
  | cons frame outer ih =>
    apply Ends.from_state
    rintro s ⟨ready, pending⟩
    apply (closeCheckpoint_covers ready).bind
    intro _
    apply Ends.from_state
    rintro closed ⟨closedReady, -, inconclusive, saved⟩
    rw [saved, Awaited, ← inconclusive] at pending
    cases remaining : frame.remaining with
    | none =>
      refine ih.here ⟨closedReady, ?_⟩
      rcases pending with inconclusive | ⟨-, phase, r, same, -⟩ | awaited
      · exact .inl inconclusive
      · cases remaining.symm.trans same
      · exact .inr awaited
    | some phase =>
      apply (enterPhase_covers (x := x) hold closedReady frame.relu phase).bind
      intro entered
      cases entered with
      | true =>
        apply Ends.through fun _ s => p.Alive x s
        · refine .modifyGet fun last enter => ⟨?_, ?_⟩
          · exact ⟨enter.ready.size_eq, enter.ready.tolerance, enter.ready.saved⟩
          rcases pending with inconclusive | ⟨admits, phase', r, same, found, side⟩ | awaited
          · exact .inr (.inl (enter.inconclusive.trans inconclusive))
          · obtain rfl : phase = phase' := Option.some.inj (remaining.symm.trans same)
            exact .inl (enter.admits admits ⟨r, found, side⟩).2
          · refine .inr (.inr ?_)
            change Awaited _ _ _ last.store.saved
            rw [enter.saved]
            exact .inr awaited
        · exact fun _ => .pure fun _ alive => alive
      | false =>
        apply Ends.from_state
        intro last enter
        apply (closeCheckpoint_covers enter.ready).bind
        intro _
        apply Ends.from_state
        rintro back ⟨backReady, -, backInconclusive, backSaved⟩
        rw [enter.saved, List.cons.injEq] at backSaved
        refine ih.here ⟨backReady, ?_⟩
        rw [backInconclusive, enter.inconclusive, ← backSaved.2]
        rcases pending with inconclusive | ⟨admits, phase', r, same, found, side⟩ | awaited
        · exact .inl inconclusive
        · obtain rfl : phase = phase' := Option.some.inj (remaining.symm.trans same)
          exact absurd (enter.admits admits ⟨r, found, side⟩).1 Bool.false_ne_true
        · exact .inr awaited

theorem backtrack_covers (hold : ∀ r ∈ p.query.relus, r.Holds x) :
    Ends (p.Left x) p.backtrack
      (fun goesOn s => if goesOn then p.Alive x s else s.inconclusive = true) fun _ _ => True := by
  apply Ends.get_bind
  intro s left
  exact (backtrackFrom_covers hold s.stack).here left

/-- Each assignment that satisfies a ReLU is in the phase that is entered first or in the other one. -/
theorem branch_covers (hold : ∀ r ∈ p.query.relus, r.Holds x) (relu : Nat) :
    Ends (p.Alive x) (p.branch relu)
      (fun goesOn s => if goesOn then p.Alive x s else s.inconclusive = true) fun _ _ => True := by
  apply (ofFault_ends fun _ _ _ => trivial).bind
  intro r
  apply (observe_ends fun _ _ _ => trivial).bind
  intro bounds
  apply Ends.from_state
  rintro s ⟨⟨⟨ready, isOpen⟩, found⟩, -⟩
  have present := relu_eq_ok.mp found
  dsimp only
  obtain ⟨first, second, order, sides⟩ : ∃ first second : Phase,
      (if bounds.polarity < 0 then (Phase.inactive, Phase.active) else (.active, .inactive)) =
        (first, second) ∧ (r.OnSide x first ∨ r.OnSide x second) := by
    split
    · exact ⟨_, _, rfl, le_total _ _⟩
    · exact ⟨_, _, rfl, le_total _ _⟩
  rw [order]
  dsimp only
  apply Ends.through fun _ last => last.Ready p.query.size ∧ last.store = s.store ∧
    last.stack = ⟨relu, some second⟩ :: s.stack ∧ last.inconclusive = s.inconclusive
  · refine .modifyGet ?_
    rintro _ rfl
    exact ⟨⟨ready.size_eq, ready.tolerance, ready.saved⟩, rfl, rfl, rfl⟩
  intro _
  apply Ends.from_state
  rintro pushed ⟨pushedReady, store, stack, inconclusive⟩
  apply (enterPhase_covers (x := x) hold pushedReady relu first).bind
  intro entered
  have settled : ∀ last, Entered p x pushed relu first entered last →
      (entered = true ∧ Store.CellsAdmit last.store.cells x) ∨ last.Pending p.query x := by
    intro last enter
    rcases isOpen with admits | inconclusive' | awaited
    · rcases sides with side | side
      · exact .inl (enter.admits (store ▸ admits) ⟨r, present, side⟩)
      · refine .inr (.inr ?_)
        rw [enter.stack, enter.saved, stack, store]
        exact .inl ⟨admits, second, r, rfl, present, side⟩
    · exact .inr (.inl ((enter.inconclusive.trans inconclusive).trans inconclusive'))
    · refine .inr (.inr ?_)
      rw [enter.stack, enter.saved, stack, store]
      exact .inr awaited
  cases entered with
  | true =>
    refine .pure fun last enter => ⟨enter.ready, ?_⟩
    rcases settled last enter with ⟨-, admits⟩ | pending
    · exact .inl admits
    · exact .inr pending
  | false =>
    refine (backtrack_covers hold).weaken ?_ (fun _ _ kept => kept) fun _ _ _ => trivial
    intro last enter
    rcases settled last enter with ⟨impossible, -⟩ | pending
    · cases impossible
    · exact ⟨enter.ready, pending⟩

theorem proceed_covers (hold : ∀ r ∈ p.query.relus, r.Holds x) (outcome : NodeOutcome Extended) :
    Ends (p.Visited x outcome) (p.proceed outcome) (p.Reached x) fun _ _ => True := by
  have goOn : ∀ goesOn : Bool, Ends
      (fun s => if goesOn then p.Alive x s else s.inconclusive = true)
      (do
        if goesOn then return none
        return some (if (← get).inconclusive then .undecided else .exhausted) :
        Searching Extended (Option (Ending Extended)))
      (p.Reached x) fun _ _ => True := by
    intro goesOn
    cases goesOn with
    | true => exact .pure fun _ alive => alive
    | false =>
      apply Ends.get_bind
      intro s inconclusive
      rw [show s.inconclusive = true from inconclusive]
      exact .pure fun _ _ => trivial
  cases outcome with
  | satisfied values => exact .pure fun _ _ => trivial
  | branch relu => exact (branch_covers hold relu).bind goOn
  | conflict | inconclusive => exact (backtrack_covers hold).bind goOn

theorem advance_covers (solved : p.SolvedBy x) (signals : Signals) :
    Ends (p.Alive x) (p.advance signals) (p.Reached x) fun _ _ => True := by
  apply Ends.through fun _ => p.Alive x
  · exact .modifyGet fun s alive => ⟨⟨alive.1.size_eq, alive.1.tolerance, alive.1.saved⟩, alive.2⟩
  intro _
  apply Ends.get_bind
  intro s alive
  split
  · refine .pure fun _ _ => ?_
    cases signals.quit <;> trivial
  · exact ((visitNode_covers solved).here alive).bind (proceed_covers solved.relus)

end Problem

end ReluSolver
