import ReluSolver.Proofs.CandidateSearch
import ReluSolver.Proofs.PropagationSoundness
import ReluSolver.Search.Tree

/-! What tightening cannot end holds of all bounds that a search works with. It comes
back to no others than it has saved, and it saves what it has. -/

namespace ReluSolver

variable {α : Type} [Scalar α] {property : Array (Cell α) → Prop}

namespace Store

variable {s last : Store α}

/-- A property of the bounds that no tightening ends. -/
def Lasting (property : Array (Cell α) → Prop) : Prop :=
  ∀ (s : Store α) (t : Tightening α) (known : t.var < s.cells.size),
    property s.cells → property (s.place t known).2.cells

theorem Tightened.lasts (tightened : s.Tightened last) (lasting : Lasting property)
    (holds : property s.cells) : property last.cells := by
  induction tightened with
  | refl => exact holds
  | place _ t known ih => exact lasting _ t known ih

omit [Scalar α] in
/-- The current bounds have a property, and so have those of all open checkpoints. -/
def Everywhere (property : Array (Cell α) → Prop) (s : Store α) : Prop :=
  ∀ cells ∈ s.cells :: s.saved, property cells

namespace Everywhere

variable (everywhere : s.Everywhere property)
include everywhere

omit [Scalar α] in
theorem now : property s.cells := everywhere s.cells (by simp)

theorem tightened (lasting : Lasting property) (tightened : s.Tightened last) :
    last.Everywhere property := by
  have saved := (List.forall_mem_cons.mp everywhere).2
  exact List.forall_mem_cons.mpr
    ⟨tightened.lasts lasting everywhere.now, tightened.saved_eq ▸ saved⟩

omit [Scalar α] in
theorem pushCheckpoint : s.pushCheckpoint.Everywhere property :=
  List.forall_mem_cons.mpr ⟨everywhere.now, everywhere⟩

omit [Scalar α] in
theorem popCheckpoint (run : s.popCheckpoint = .ok last) : last.Everywhere property := by
  have saved := (List.forall_mem_cons.mp everywhere).2
  rwa [(saved_of_popCheckpoint run).1] at saved

end Everywhere

end Store

abbrev Session.Everywhere (property : Array (Cell α) → Prop) (s : Session α) : Prop :=
  s.store.Everywhere property

/-- The search is where it was, perhaps with stricter bounds there. -/
structure Session.Narrowed (s last : Session α) : Prop where
  store : s.store.Tightened last.store
  stack : last.stack = s.stack
  nodes : last.statistics.nodes = s.statistics.nodes
  maxDepth : last.statistics.maxDepth = s.statistics.maxDepth

theorem Session.Narrowed.everywhere {s last : Session α} (narrowed : s.Narrowed last)
    (lasting : Store.Lasting property) (everywhere : s.Everywhere property) :
    last.Everywhere property :=
  Store.Everywhere.tightened everywhere lasting narrowed.store

namespace Problem

open Searching

variable (p : Problem α)

omit [Scalar α] in
theorem count_everywhere (change : SearchStatistics → SearchStatistics) :
    Preserves (Session.Everywhere property) (count change) :=
  .modifyGet fun _ everywhere => everywhere

omit [Scalar α] in
theorem closeCheckpoint_everywhere :
    Preserves (Session.Everywhere property) (closeCheckpoint : Searching α Unit) := by
  apply (observe_ends fun _ _ everywhere => everywhere).bind
  intro store
  exact .modifyGet fun _ popped => popped.1.popCheckpoint popped.2

theorem propagateNode_narrows (s : Session α) :
    Ends (· = s) p.propagateNode (fun _ => s.Narrowed) fun _ => s.Narrowed := by
  intro state same
  obtain rfl : s = state := same.symm
  have kept := p.effort.propagate_tightened s.store p.query.equations p.derived p.query.relus
    s.store .refl
  unfold propagateNode Effort.propagateQuery
  cases run : p.effort.propagate p.query.equations p.derived p.query.relus s.store with
  | ok news last =>
    rw [run] at kept
    exact ⟨kept, rfl, rfl, rfl⟩
  | error cause last =>
    rw [run] at kept
    cases cause with
    | conflict | factorization | fault => exact ⟨kept, rfl, rfl, rfl⟩

variable (lasting : Store.Lasting property)
include lasting

theorem onStore_everywhere {β : Type} {action : Store.Action Fault α β}
    (tightens : ∀ start, Preserves (Store.Tightened start) action) :
    Preserves (Session.Everywhere property) (onStore action) := by
  intro s everywhere
  have kept := tightens s.store s.store .refl
  unfold onStore
  cases run : action s.store with
  | ok | error =>
    rw [run] at kept
    exact everywhere.tightened lasting kept

theorem propagateNode_everywhere : Preserves (Session.Everywhere property) p.propagateNode :=
  .from_state fun s everywhere => (propagateNode_narrows p s).weaken (fun _ same => same)
    (fun _ _ narrowed => narrowed.everywhere lasting everywhere)
    fun _ _ narrowed => narrowed.everywhere lasting everywhere

theorem visitNode_everywhere :
    Ends (Session.Everywhere property) p.visitNode
      (fun outcome s => s.Everywhere property ∧
        ∀ values, outcome = .satisfied values → p.Accepts s values)
      fun _ => Session.Everywhere property := by
  apply (count_everywhere _).bind
  intro _
  apply (propagateNode_everywhere p lasting).bind
  intro goesOn
  cases goesOn with
  | false => exact .pure fun _ everywhere => ⟨everywhere, by simp⟩
  | true =>
    apply Ends.from_state
    intro s everywhere
    have same {last : Session α} (kept : s.SameTree last) : last.Everywhere property := by
      rw [Session.Everywhere, kept.store]
      exact everywhere
    apply ((findSolution_keeps p s).here (.refl s)).weaken (fun _ kept => kept)
      (fun _ _ kept => kept) (fun _ _ kept => same kept) |>.bind
    intro found
    cases found with
    | some values =>
      refine .pure fun last kept => ⟨same kept.1, fun other equal => ?_⟩
      obtain rfl := NodeOutcome.satisfied.inj equal
      obtain ⟨satisfied, within⟩ := kept.2 values rfl
      exact ⟨satisfied, kept.1.store ▸ within⟩
    | none =>
      apply (observe_ends fun _ _ kept => same kept.1).bind
      intro chosen
      cases chosen with
      | some relu => exact .pure fun _ kept => ⟨same kept.1.1, by simp⟩
      | none =>
        apply Ends.through fun _ => Session.Everywhere property
        · exact .modifyGet fun last kept => (same kept.1.1 : last.Everywhere property)
        intro _
        apply Ends.through fun _ => Session.Everywhere property
        · exact .modifyGet fun _ kept => kept
        · exact fun _ => .pure fun _ everywhere => ⟨everywhere, by simp⟩

theorem enterPhase_everywhere (relu : Nat) (phase : Phase) :
    Preserves (Session.Everywhere property) (p.enterPhase relu phase) := by
  apply Ends.through fun _ => Session.Everywhere property
  · exact .modifyGet fun _ everywhere => everywhere.pushCheckpoint
  intro _
  apply (ofFault_ends fun _ _ everywhere => everywhere).bind
  intro r
  apply (ofFault_ends fun _ _ everywhere => everywhere.1).bind
  intro split
  apply ((onStore_everywhere lasting fun start => Store.tightenAll_tightened start _).strengthen
    fun _ read => read.1.1).bind
  intro outcome
  split
  · exact (count_everywhere _).bind fun _ => .pure fun _ everywhere => everywhere
  · exact .pure fun _ everywhere => everywhere

theorem backtrackFrom_everywhere (frames : List Frame) :
    Preserves (Session.Everywhere property) (p.backtrackFrom frames) := by
  induction frames with
  | nil =>
    refine Ends.through (fun _ => Session.Everywhere property) (.modifyGet fun _ kept => kept) ?_
    exact fun _ => .pure fun _ everywhere => everywhere
  | cons frame outer ih =>
    apply closeCheckpoint_everywhere.bind
    intro _
    split
    next => exact ih
    next phase _ =>
      apply (enterPhase_everywhere p lasting frame.relu phase).bind
      intro entered
      cases entered with
      | true =>
        apply Ends.through fun _ => Session.Everywhere property
        · exact .modifyGet fun _ kept => kept
        · exact fun _ => .pure fun _ everywhere => everywhere
      | false => exact closeCheckpoint_everywhere.bind fun _ => ih

theorem backtrack_everywhere : Preserves (Session.Everywhere property) p.backtrack :=
  Ends.get_bind fun s everywhere => (backtrackFrom_everywhere p lasting s.stack).here everywhere

theorem branch_everywhere (relu : Nat) :
    Preserves (Session.Everywhere property) (p.branch relu) := by
  apply (ofFault_ends fun _ _ everywhere => everywhere).bind
  intro r
  apply (observe_ends fun _ _ everywhere => everywhere.1).bind
  intro bounds
  dsimp only
  refine Ends.through (fun _ => Session.Everywhere property) (.modifyGet fun _ read => read.1.1) ?_
  intro _
  apply (enterPhase_everywhere p lasting relu _).bind
  intro entered
  cases entered with
  | true => exact .pure fun _ everywhere => everywhere
  | false => exact backtrack_everywhere p lasting

/-- A step of the search works with bounds that have the property, and a solution that it ends
with is within such bounds. -/
theorem advance_everywhere (signals : Signals) :
    Ends (Session.Everywhere property) (p.advance signals)
      (fun ending s => s.Everywhere property ∧
        ∀ values, ending = some (.satisfied values) → p.Accepts s values)
      fun _ => Session.Everywhere property := by
  refine Ends.through (fun _ => Session.Everywhere property) (.modifyGet fun _ kept => kept) ?_
  intro _
  apply Ends.get_bind
  intro s everywhere
  split
  · refine .pure fun _ same => ⟨same ▸ everywhere, fun values ending => ?_⟩
    split at ending <;> cases ending
  · apply ((visitNode_everywhere p lasting).here everywhere).bind
    intro outcome
    have goOn (goesOn : Bool) : Ends (Session.Everywhere property)
        (do
          if goesOn then return none
          return some (if (← get).inconclusive then .undecided else .exhausted) :
          Searching α (Option (Ending α)))
        (fun ending s => s.Everywhere property ∧
          ∀ values, ending = some (.satisfied values) → p.Accepts s values)
        fun _ => Session.Everywhere property := by
      cases goesOn with
      | true => exact .pure fun _ everywhere => ⟨everywhere, by simp⟩
      | false =>
        refine Ends.get_bind fun s everywhere => .pure fun _ same => ⟨same ▸ everywhere, ?_⟩
        intro values ending
        split at ending <;> cases ending
    cases outcome with
    | satisfied values =>
      refine .pure fun last visited => ⟨visited.1, fun other ending => visited.2 other ?_⟩
      rw [Ending.satisfied.inj (Option.some.inj ending)]
    | branch relu =>
      exact ((branch_everywhere p lasting relu).strengthen fun _ visited => visited.1).bind goOn
    | conflict | inconclusive =>
      exact ((backtrack_everywhere p lasting).strengthen fun _ visited => visited.1).bind goOn

end Problem

end ReluSolver
