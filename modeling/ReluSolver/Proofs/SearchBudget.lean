import ReluSolver.Proofs.PhaseStack

/-! How many nodes a search visits. Below a node at which so many ReLUs are unbranched
there is at most a full binary tree of that height. The nodes visited so far, those that
the current node may still come to and those that the open frames may still come to never
add up to more than the tree of all ReLUs. -/

namespace ReluSolver

open Extended Searching

/-- The nodes of a full binary tree, at each leaf of which so many ReLUs have been branched on. -/
def treeSize (relus : Nat) : Nat := 2 ^ (relus + 1) - 1

theorem treeSize_succ (relus : Nat) :
    treeSize (relus + 1) = treeSize relus + treeSize relus + 1 := by
  have positive : 0 < 2 ^ (relus + 1) := by positivity
  simp only [treeSize]
  rw [Nat.pow_succ 2 (relus + 1)]
  omega

theorem treeSize_positive (relus : Nat) : 0 < treeSize relus := by
  cases relus with
  | zero => decide
  | succ relus => rw [treeSize_succ]; omega

/-- The nodes that the phase left in a frame may come to. -/
def Frame.pendingNodes (relus depth : Nat) (frame : Frame) : Nat :=
  if frame.remaining.isSome then treeSize (relus - depth) else 0

def pendingNodes (relus : Nat) : List Frame → Nat
  | [] => 0
  | frame :: outer => frame.pendingNodes relus (outer.length + 1) + pendingNodes relus outer

namespace Session

/-- The tree of all ReLUs is not used up. -/
structure Counted (q : Query Extended) (s : Session Extended) : Prop where
  nodes : s.statistics.nodes ≤ treeSize q.relus.length
  maxDepth : s.statistics.maxDepth ≤ q.relus.length

/-- A search with some open frames, that has visited some nodes and may still visit others before it
closes the innermost frame. -/
structure Treads (q : Query Extended) (frames : List Frame) (visited owed : Nat)
    (s : Session Extended) : Prop where
  defined : s.Everywhere Store.CellsDefined
  trodden : Trodden q frames s.store.saved
  nodes : s.statistics.nodes = visited
  maxDepth : s.statistics.maxDepth ≤ q.relus.length
  budget : visited + owed + pendingNodes q.relus.length frames ≤ treeSize q.relus.length

/-- A search whose open frames all have settled ReLUs. -/
structure Stands (q : Query Extended) (frames : List Frame) (visited owed : Nat)
    (s : Session Extended) : Prop where
  stack : s.stack = frames
  treads : s.Treads q frames visited owed
  settled : ∀ frame ∈ frames, q.Settles s.store.cells frame.relu

def AtNode (q : Query Extended) (visited : Nat) (s : Session Extended) : Prop :=
  s.Stands q s.stack visited (treeSize (q.relus.length - s.stack.length))

variable {q : Query Extended} {frames : List Frame} {visited owed : Nat} {s last : Session Extended}

theorem Treads.counted (treads : s.Treads q frames visited owed) : s.Counted q :=
  ⟨by have := treads.budget; have := treads.nodes; omega, treads.maxDepth⟩

theorem Treads.weaken (treads : s.Treads q frames visited owed) {less : Nat} (fewer : less ≤ owed) :
    s.Treads q frames visited less :=
  ⟨treads.defined, treads.trodden, treads.nodes, treads.maxDepth, by have := treads.budget; omega⟩

theorem Treads.carried (treads : s.Treads q frames visited owed) (store : last.store = s.store)
    (nodes : last.statistics.nodes = s.statistics.nodes)
    (maxDepth : last.statistics.maxDepth = s.statistics.maxDepth) :
    last.Treads q frames visited owed := by
  refine ⟨?_, store ▸ treads.trodden, nodes.trans treads.nodes, maxDepth ▸ treads.maxDepth,
    treads.budget⟩
  rw [Everywhere, store]
  exact treads.defined

theorem Stands.atNode
    (stands : s.Stands q frames visited (treeSize (q.relus.length - frames.length))) :
    s.AtNode q visited := by
  obtain rfl := stands.stack
  exact stands

theorem Stands.narrowed (stands : s.Stands q frames visited owed) (narrowed : s.Narrowed last) :
    last.Stands q frames visited owed := by
  obtain ⟨shape, ⟨defined, trodden, counted, deep, budget⟩, settled⟩ := stands
  obtain ⟨tightened, stack, nodes, maxDepth⟩ := narrowed
  refine ⟨stack.trans shape, ⟨defined.tightened Store.cellsDefined_lasting tightened,
    tightened.saved_eq ▸ trodden, nodes.trans counted, maxDepth ▸ deep, budget⟩, ?_⟩
  exact fun frame member => tightened.lasts (q.settles_lasting _) (settled frame member)

theorem SameTree.stands (same : s.SameTree last) (stands : s.Stands q frames visited owed) :
    last.Stands q frames visited owed :=
  stands.narrowed ⟨same.store ▸ .refl, same.stack, same.nodes, same.maxDepth⟩

theorem SameTree.counted (same : s.SameTree last) (counted : s.Counted q) : last.Counted q :=
  ⟨same.nodes ▸ counted.nodes, same.maxDepth ▸ counted.maxDepth⟩

end Session

namespace Problem

variable {p : Problem Extended} {visited owed : Nat} {frames outer : List Frame}

section Nodes

theorem propagateNode_stands :
    Ends (Session.Stands p.query frames visited owed) p.propagateNode
      (fun _ => Session.Stands p.query frames visited owed) fun _ => Session.Counted p.query :=
  .from_state fun s stands => (propagateNode_narrows p s).weaken (fun _ same => same)
    (fun _ _ narrowed => stands.narrowed narrowed)
    fun _ _ narrowed => (stands.narrowed narrowed).treads.counted

variable {epsilon : ℚ} (same : p.effort.tolerance.epsilon = finite epsilon) (positive : 0 ≤ epsilon)
include same positive

/-- A visit counts the node. If it is branched on, then on a ReLU that no open frame is about. -/
theorem visitNode_stands :
    Ends (Session.Stands p.query frames visited (treeSize (p.query.relus.length - frames.length)))
      p.visitNode
      (fun outcome s => s.Stands p.query frames (visited + 1)
          (treeSize (p.query.relus.length - frames.length) - 1) ∧
        ∀ relu, outcome = .branch relu → relu < p.query.relus.length ∧
          ∀ frame ∈ frames, frame.relu ≠ relu)
      fun _ => Session.Counted p.query := by
  let Visited : Session Extended → Prop := Session.Stands p.query frames (visited + 1)
    (treeSize (p.query.relus.length - frames.length) - 1)
  apply Ends.through fun _ => Visited
  · refine .modifyGet fun s node => ?_
    obtain ⟨stack, ⟨defined, trodden, counted, deep, budget⟩, settled⟩ := node
    have itself := treeSize_positive (p.query.relus.length - frames.length)
    exact ⟨stack, ⟨defined, trodden, congrArg (· + 1) counted, deep, by omega⟩, settled⟩
  intro _
  apply propagateNode_stands.bind
  intro goesOn
  cases goesOn with
  | false => exact .pure fun _ visiting => ⟨visiting, by simp⟩
  | true =>
    apply Ends.from_state
    intro s visiting
    apply ((findSolution_keeps p s).here (.refl s)).weaken (fun _ kept => kept)
      (fun _ _ kept => kept.1) (fun _ _ kept => kept.counted visiting.treads.counted) |>.bind
    intro found
    cases found with
    | some values => exact .pure fun _ kept => ⟨kept.stands visiting, by simp⟩
    | none =>
      apply (observe_ends fun _ _ kept => kept.counted visiting.treads.counted).bind
      intro chosen
      apply Ends.from_state
      rintro last ⟨kept, selected⟩
      have stands := kept.stands visiting
      cases chosen with
      | some relu =>
        refine .pure fun _ equal => ⟨equal ▸ stands, fun other branched => ?_⟩
        obtain rfl := NodeOutcome.branch.inj branched
        -- What is selected is unfixed, and the ReLUs of the open frames are settled.
        obtain ⟨r, listed, unfixed⟩ := BranchingHeuristic.select_unfixed selected
        refine ⟨(List.getElem?_eq_some_iff.mp listed).1, ?_⟩
        rintro frame member rfl
        obtain ⟨r', listed', settled⟩ := stands.settled frame member
        obtain rfl := Option.some.inj (listed.symm.trans listed')
        exact settled.phase_fixed same positive unfixed rfl
      | none =>
        apply Ends.through fun _ => Visited
        · refine .modifyGet ?_
          rintro _ rfl
          exact stands.narrowed ⟨.refl, rfl, rfl, rfl⟩
        intro _
        refine Ends.through (fun _ => Visited) (.modifyGet fun s stands => ?_) fun _ => ?_
        · exact stands.narrowed ⟨.refl, rfl, rfl, rfl⟩
        · exact .pure fun _ stands => ⟨stands, by simp⟩

end Nodes

section Phases

theorem enterPhase_treads (frame : Frame) (phase : Phase) (stack : List Frame) (rest : Nat)
    (own : frame.relu < p.query.relus.length ∧ ∀ other ∈ outer, other.relu ≠ frame.relu)
    (covers : rest + frame.pendingNodes p.query.relus.length (outer.length + 1) ≤ owed) :
    Ends (fun s => s.stack = stack ∧ s.Treads p.query outer visited owed ∧
        ∀ other ∈ outer, p.query.Settles s.store.cells other.relu)
      (p.enterPhase frame.relu phase)
      (fun entered s => s.stack = stack ∧ s.Treads p.query (frame :: outer) visited rest ∧
        (entered = true → ∀ other ∈ frame :: outer, p.query.Settles s.store.cells other.relu))
      fun _ => Session.Counted p.query := by
  apply Ends.from_state
  rintro before ⟨rfl, treads, settled⟩
  let pushed : Session Extended := { before with store := before.store.pushCheckpoint }
  have counted : pushed.Counted p.query := ⟨treads.counted.nodes, treads.counted.maxDepth⟩
  have opened : pushed.Treads p.query (frame :: outer) visited rest := by
    refine ⟨treads.defined.pushCheckpoint, ?_, treads.nodes, treads.maxDepth, ?_⟩
    · exact ⟨own.1, fun other member => ⟨settled other member, own.2 other member⟩, treads.trodden⟩
    · have := treads.budget
      rw [pendingNodes]
      omega
  apply Ends.through fun _ s => s = pushed
  · exact .modifyGet fun s same => same ▸ rfl
  intro _
  apply (ofFault_ends fun _ _ same => same ▸ counted).bind
  intro r
  apply (ofFault_ends fun _ _ same => same.1 ▸ counted).bind
  intro split
  apply Ends.from_state
  rintro _ ⟨⟨rfl, found⟩, made⟩
  let Inside (outcome : Outcome) (s : Session Extended) : Prop :=
    s.stack = before.stack ∧ s.Treads p.query (frame :: outer) visited rest ∧
      (outcome ≠ .infeasible → ∀ other ∈ frame :: outer, p.query.Settles s.store.cells other.relu)
  apply Ends.through Inside
  · rintro _ rfl
    have kept := Store.tightenAll_tightened pushed.store split.tightenings pushed.store .refl
    unfold onStore
    cases run : Store.tightenAll split.tightenings pushed.store with
    | error => exact ⟨counted.nodes, counted.maxDepth⟩
    | ok outcome last =>
      rw [run] at kept
      refine ⟨rfl, ⟨opened.defined.tightened Store.cellsDefined_lasting kept,
        kept.saved_eq ▸ opened.trodden, opened.nodes, opened.maxDepth, opened.budget⟩, ?_⟩
      refine fun feasible => List.forall_mem_cons.mpr ⟨⟨r, relu_eq_ok.mp found, ?_⟩, ?_⟩
      · exact Relu.phaseSplit_settles made opened.defined.now run feasible
      · exact fun other member => kept.lasts (p.query.settles_lasting _) (settled other member)
  intro outcome
  have entered {s : Session Extended} (inside : Inside outcome s) : s.stack = before.stack ∧
      s.Treads p.query (frame :: outer) visited rest ∧ ((!outcome.isInfeasible) = true →
        ∀ other ∈ frame :: outer, p.query.Settles s.store.cells other.relu) := by
    refine ⟨inside.1, inside.2.1, fun feasible => inside.2.2 ?_⟩
    rintro rfl
    cases feasible
  split
  · refine Ends.through (fun _ => Inside outcome) (.modifyGet fun s inside => ?_) fun _ => ?_
    · obtain ⟨stack, treads, settled⟩ := inside
      exact ⟨stack, treads.carried rfl rfl rfl, settled⟩
    · exact .pure fun _ inside => entered inside
  · exact .pure fun _ inside => entered inside

theorem closeCheckpoint_treads {frame : Frame} :
    Ends (Session.Treads p.query (frame :: outer) visited owed)
      (closeCheckpoint : Searching Extended Unit)
      (fun _ s => s.Treads p.query outer visited
          (owed + frame.pendingNodes p.query.relus.length (outer.length + 1)) ∧
        ∀ other ∈ outer, p.query.Settles s.store.cells other.relu)
      fun _ => Session.Counted p.query := by
  apply (observe_ends fun _ _ treads => treads.counted).bind
  intro popped
  refine .modifyGet ?_
  rintro s ⟨⟨defined, trodden, nodes, maxDepth, budget⟩, closed⟩
  rw [(Store.saved_of_popCheckpoint closed).1] at trodden
  obtain ⟨-, apart, others⟩ := trodden
  rw [pendingNodes] at budget
  exact ⟨⟨defined.popCheckpoint closed, others, nodes, maxDepth, by omega⟩,
    fun other member => (apart other member).1⟩

/-- Coming back stands at a node that was still to be visited, or has left all frames. -/
theorem backtrackFrom_treads (frames : List Frame) :
    Ends (Session.Treads p.query frames visited 0) (p.backtrackFrom frames)
      (fun goesOn s => s.Treads p.query s.stack visited 0 ∧
        (goesOn = true → s.AtNode p.query visited))
      fun _ => Session.Counted p.query := by
  induction frames with
  | nil =>
    refine Ends.through (fun _ s => s.Treads p.query s.stack visited 0) (.modifyGet ?_) fun _ => ?_
    · exact fun s treads => treads.carried rfl rfl rfl
    · exact .pure fun _ treads => ⟨treads, nofun⟩
  | cons frame outer ih =>
    apply Ends.from_state
    intro s treads
    obtain ⟨inside, apart⟩ : frame.relu < p.query.relus.length ∧
        ∀ other ∈ outer, other.relu ≠ frame.relu := by
      obtain ⟨nodup, known⟩ := treads.trodden.own
      rw [List.map_cons, List.nodup_cons] at nodup
      exact ⟨known frame (by simp), fun other member same =>
        nodup.1 (List.mem_map.mpr ⟨other, member, same⟩)⟩
    apply (closeCheckpoint_treads.here treads).bind
    intro _
    apply Ends.from_state
    rintro closed ⟨treads, settled⟩
    cases remaining : frame.remaining with
    | none => exact ih.here (treads.weaken (Nat.zero_le _))
    | some phase =>
      -- What was left of the frame is owed to the node of its other phase now.
      have pending : frame.pendingNodes p.query.relus.length (outer.length + 1) =
          treeSize (p.query.relus.length - (outer.length + 1)) := by
        rw [Frame.pendingNodes, remaining]
        rfl
      rw [pending, Nat.zero_add] at treads
      apply ((enterPhase_treads ⟨frame.relu, none⟩ phase closed.stack _ ⟨inside, apart⟩
        (Nat.le_of_eq (Nat.add_zero _))).here ⟨rfl, treads, settled⟩).bind
      intro entered
      cases entered with
      | true =>
        refine Ends.through (fun _ => Session.AtNode p.query visited) (.modifyGet ?_) fun _ => ?_
        · rintro s ⟨-, treads, settled⟩
          exact ⟨rfl, treads.carried rfl rfl rfl, settled rfl⟩
        · exact .pure fun _ atNode => ⟨atNode.treads.weaken (Nat.zero_le _), fun _ => atNode⟩
      | false =>
        refine Ends.bind (closeCheckpoint_treads.strengthen fun _ kept => kept.2.1) fun _ => ?_
        exact ih.strengthen fun _ closed => closed.1.weaken (Nat.zero_le _)

theorem openFrame_stands {relu : Nat}
    (own : relu < p.query.relus.length ∧ ∀ other ∈ frames, other.relu ≠ relu) :
    Ends (Session.Stands p.query frames visited
        (treeSize (p.query.relus.length - frames.length) - 1))
      (p.openFrame relu)
      (fun entered s => s.Treads p.query s.stack visited 0 ∧
        (entered = true → s.AtNode p.query visited))
      fun _ => Session.Counted p.query := by
  apply (ofFault_ends fun _ _ stands => stands.treads.counted).bind
  intro r
  apply (observe_ends fun _ _ stands => stands.1.treads.counted).bind
  intro bounds
  obtain ⟨first, second, order⟩ : ∃ first second : Phase,
      (if bounds.polarity < 0 then (Phase.inactive, Phase.active) else (.active, .inactive)) =
        (first, second) := ⟨_, _, rfl⟩
  rw [order]
  apply Ends.from_state
  rintro s ⟨⟨⟨stack, treads, settled⟩, -⟩, -⟩
  -- The new frame is one more of at most as many as there are ReLUs, so both phases find room.
  have trodden : Trodden p.query (⟨relu, some second⟩ :: frames) (s.store.cells :: s.store.saved) :=
    ⟨own.1, fun other member => ⟨settled other member, own.2 other member⟩, treads.trodden⟩
  have room : frames.length + 1 ≤ p.query.relus.length := trodden.length_le
  have deep : max s.statistics.maxDepth (s.stack.length + 1) ≤ p.query.relus.length :=
    max_le treads.maxDepth (stack ▸ room)
  have both : treeSize (p.query.relus.length - (frames.length + 1)) +
      treeSize (p.query.relus.length - (frames.length + 1)) =
      treeSize (p.query.relus.length - frames.length) - 1 := by
    have one : p.query.relus.length - frames.length =
        p.query.relus.length - (frames.length + 1) + 1 := by omega
    rw [one, treeSize_succ]
    omega
  apply Ends.through fun _ t => t.stack = ⟨relu, some second⟩ :: frames ∧
    t.Treads p.query frames visited (treeSize (p.query.relus.length - frames.length) - 1) ∧
    ∀ other ∈ frames, p.query.Settles t.store.cells other.relu
  · refine .modifyGet ?_
    rintro _ rfl
    exact ⟨congrArg _ stack,
      ⟨treads.defined, treads.trodden, treads.nodes, deep, treads.budget⟩, settled⟩
  intro _
  refine (enterPhase_treads ⟨relu, some second⟩ first _ _ own both.le).mono ?_
  rintro entered t ⟨stack, treads, settled⟩
  exact ⟨stack ▸ treads.weaken (Nat.zero_le _),
    fun yes => Session.Stands.atNode ⟨stack, treads, settled yes⟩⟩

end Phases

section Steps

variable {epsilon : ℚ} (same : p.effort.tolerance.epsilon = finite epsilon) (positive : 0 ≤ epsilon)
include same positive

theorem descend_treads :
    Ends (Session.AtNode p.query visited) p.descend
      (fun found s => s.Treads p.query s.stack (visited + 1) 0 ∧
        (found = some none → s.AtNode p.query (visited + 1)))
      fun _ => Session.Counted p.query := by
  apply Ends.from_state
  intro s atNode
  apply ((visitNode_stands same positive).here atNode).bind
  intro outcome
  apply Ends.from_state
  rintro visitedNode ⟨stands, branches⟩
  have treads : visitedNode.Treads p.query visitedNode.stack (visited + 1) 0 :=
    stands.stack ▸ stands.treads.weaken (Nat.zero_le _)
  cases outcome with
  | satisfied values => exact .pure fun _ same => ⟨same ▸ treads, by simp⟩
  | conflict | inconclusive => exact .pure fun _ same => ⟨same ▸ treads, by simp⟩
  | branch relu =>
    apply ((openFrame_stands (branches relu rfl)).here stands).bind
    intro entered
    cases entered with
    | true => exact .pure fun _ opened => ⟨opened.1, fun _ => opened.2 rfl⟩
    | false => exact .pure fun _ opened => ⟨opened.1, by simp⟩

/-- A step visits one more node, and that never uses up the tree before the search is over. -/
theorem advance_counts (signals : Signals) :
    Ends (Session.AtNode p.query visited) (p.advance signals)
      (fun ending s => s.Counted p.query ∧ (ending = none → s.AtNode p.query (visited + 1)))
      fun _ => Session.Counted p.query := by
  refine Ends.through (fun _ => Session.AtNode p.query visited) (.modifyGet fun s atNode => ?_) ?_
  · exact atNode.narrowed ⟨.refl, rfl, rfl, rfl⟩
  intro _
  apply Ends.get_bind
  intro s atNode
  split
  · exact .pure fun _ same => ⟨same ▸ atNode.treads.counted, nofun⟩
  · rw [visitNode_proceed]
    apply ((descend_treads same positive).here atNode).bind
    intro reached
    cases reached with
    | some ending =>
      refine .pure fun _ reached => ⟨reached.1.counted, ?_⟩
      rintro rfl
      exact reached.2 rfl
    | none =>
      have comesBack : Ends (fun s => s.Treads p.query s.stack (visited + 1) 0) p.backtrack
          (fun goesOn s => s.Treads p.query s.stack (visited + 1) 0 ∧
            (goesOn = true → s.AtNode p.query (visited + 1)))
          fun _ => Session.Counted p.query :=
        Ends.get_bind fun s treads => (backtrackFrom_treads s.stack).here treads
      refine Ends.bind (comesBack.strengthen fun _ reached => reached.1) fun goesOn => ?_
      cases goesOn with
      | true => exact .pure fun _ back => ⟨back.1.counted, fun _ => back.2 rfl⟩
      | false =>
        exact Ends.get_bind fun _ back => .pure fun _ same => ⟨same ▸ back.1.counted, nofun⟩

end Steps

end Problem

end ReluSolver
