import ReluSolver.Proofs.FaultlessEngine
import ReluSolver.Proofs.RegionRoots
import ReluSolver.Proofs.SearchBudget

/-! Every decision of the engine comes to an end, after no more nodes than the tree of all
ReLUs has, and no search is ever deeper than there are ReLUs. -/

namespace ReluSolver

open Extended

/-- A search that has branched at most once on each ReLU, and has not used up the tree of all
of them. -/
structure Session.BranchesOnce (q : Query Extended) (s : Session Extended) : Prop where
  once : (s.stack.map (·.relu)).Nodup
  known : ∀ frame ∈ s.stack, frame.relu < q.relus.length
  depth : s.stack.length ≤ q.relus.length
  maxDepth : s.statistics.maxDepth ≤ q.relus.length
  nodes : s.statistics.nodes ≤ 2 ^ (q.relus.length + 1) - 1

theorem Session.Treads.branchesOnce {q : Query Extended} {visited owed : Nat} {s : Session Extended}
    (treads : s.Treads q s.stack visited owed) : s.BranchesOnce q :=
  ⟨treads.trodden.own.1, treads.trodden.own.2, treads.trodden.length_le, treads.maxDepth,
    treads.counted.nodes⟩

namespace DepthFirst

/-- What the engine counts is within the tree of all ReLUs. -/
structure Counted (q : Query Extended) (e : DepthFirst Extended) : Prop where
  nodes : e.statistics.nodes ≤ 2 ^ (q.relus.length + 1) - 1
  maxDepth : e.statistics.maxDepth ≤ q.relus.length

/-- A search that is about to visit a node, up to a valid tolerance. -/
structure Visits (q : Query Extended) (visited : Nat) (p : Problem Extended)
    (s : Session Extended) : Prop where
  query : p.query = q
  tolerance : ∃ epsilon : ℚ, p.effort.tolerance.epsilon = finite epsilon ∧ 0 ≤ epsilon
  atNode : s.AtNode q visited

def InTree (q : Query Extended) (visited : Nat) (e : DepthFirst Extended) : Prop :=
  ∃ p s, e.session = some (p, s) ∧ Visits q visited p s

variable {q : Query Extended} {visited : Nat}

theorem InTree.room {e : DepthFirst Extended} (inTree : e.InTree q visited) :
    visited < treeSize q.relus.length := by
  obtain ⟨p, s, -, -, -, atNode⟩ := inTree
  have itself := treeSize_positive (q.relus.length - s.stack.length)
  have budget := atNode.treads.budget
  omega

theorem BeginsAt.visits {given : DepthFirst Extended} {split : CaseSplit Extended}
    {state : Option (TreeState Extended)} {p : Problem Extended} {s : Session Extended}
    (begins : given.BeginsAt split state p s) : Visits p.query 0 p s := by
  obtain ⟨tolerance, epsilon, rational, positive⟩ := SearchConfig.effort_valid begins.effort
  have fresh : Store.CellsDefined (Array.replicate p.query.size Cell.unbounded) := by
    intro v c found
    obtain ⟨-, rfl⟩ : v < p.query.size ∧ Cell.unbounded = c := by
      simpa [Array.getElem?_replicate] using found
    exact Interval.all_defined
  refine ⟨rfl, ⟨epsilon, by rw [tolerance]; exact rational, positive⟩, ?_⟩
  have stands : s.Stands p.query [] 0 (treeSize p.query.relus.length) := by
    refine ⟨begins.stack, ⟨?_, trivial, begins.nodes, ?_, Nat.le_of_eq (Nat.zero_add _)⟩, nofun⟩
    · exact begins.root.everywhere (begins.root.tightened.lasts Store.cellsDefined_lasting fresh)
    · rw [begins.maxDepth]
      exact Nat.zero_le _
  exact stands.atNode

theorem advance_inTree (signals : Signals) :
    Ends (InTree q visited) (advance signals)
      (fun outcome e => e.Counted q ∧ (outcome = none → e.InTree q (visited + 1)) ∧
        (outcome ≠ none → e.session = none))
      fun _ e => e.session = none := by
  rintro e ⟨p, s, shape, rfl, ⟨epsilon, same, positive⟩, atNode⟩
  have counts := Problem.advance_counts same positive signals s atNode
  unfold advance
  rw [shape]
  dsimp only
  cases run : p.advance signals s with
  | ok ending last =>
    rw [run] at counts
    obtain ⟨⟨nodes, maxDepth⟩, goesOn⟩ := counts
    cases ending with
    | none =>
      exact ⟨⟨nodes, maxDepth⟩, fun _ => ⟨p, last, rfl, rfl, ⟨epsilon, same, positive⟩, goesOn rfl⟩,
        nofun⟩
    | some ending => exact ⟨⟨nodes, maxDepth⟩, nofun, fun _ => rfl⟩
  | error cause last =>
    rw [run] at counts
    cases cause with
    | failure => exact ⟨⟨counts.nodes, counts.maxDepth⟩, nofun, fun _ => rfl⟩
    | fault => rfl

section Operated

variable {c : SearchConfig Extended} {epsilon : ℚ} (same : c.epsilon = finite epsilon)
  (positive : 0 ≤ epsilon)
include same positive

theorem Operated.visits {e : DepthFirst Extended} (operated : Operated c e) :
    ∀ p s, e.session = some (p, s) → ∃ visited, Visits p.query visited p s := by
  induction operated with
  | new => simp [DepthFirst.new]
  | diversify _ _ _ ih => exact ih
  | @process e before raw regular simplified _ =>
    have unused := process_unused raw simplified e rfl
    have none : (stateAfter (DepthFirst.process raw simplified e)).session = none := by
      cases run : DepthFirst.process raw simplified e with
      | ok | error =>
        rw [run] at unused
        exact unused.session
    intro p s shape
    cases none.symm.trans shape
  | @start e before split known limit state _ =>
    obtain ⟨outcome, last, run, -⟩ := (start_returns same positive split limit state).run
      ⟨before.steady same positive, known⟩
    obtain ⟨-, begun⟩ := (start_begins_at e split limit state).ok rfl run
    intro p s shape
    rw [run] at shape
    cases outcome with
    | none =>
      obtain ⟨p', s', held, begins⟩ := begun
      obtain ⟨rfl, rfl⟩ := Prod.mk.inj (Option.some.inj (held.symm.trans shape))
      exact ⟨0, begins.visits⟩
    | some code => cases begun.2.2.symm.trans shape
  | @advance e before signals ih =>
    intro p s shape
    cases held : e.session with
    | none =>
      rw [show DepthFirst.advance signals e = .ok (some e.exitCode) e by
        unfold DepthFirst.advance; rw [held]] at shape
      cases held.symm.trans shape
    | some pair =>
      obtain ⟨visited, visits⟩ := ih pair.1 pair.2 held
      have stepped := advance_inTree signals e ⟨pair.1, pair.2, held, visits⟩
      cases run : DepthFirst.advance signals e with
      | error cause last =>
        rw [run] at stepped shape
        cases stepped.symm.trans shape
      | ok outcome last =>
        rw [run] at stepped shape
        cases outcome with
        | none =>
          obtain ⟨p', s', now, visits⟩ := stepped.2.1 rfl
          obtain ⟨rfl, rfl⟩ := Prod.mk.inj (Option.some.inj (now.symm.trans shape))
          exact ⟨_, visits.query ▸ visits⟩
        | some code => cases (stepped.2.2 (Option.some_ne_none _)).symm.trans shape

/-- From a node on a decision takes as many steps as there are nodes left, or fewer. -/
theorem advanceFor_ends (world : Nat → Signals) {e : DepthFirst Extended} (operated : Operated c e)
    (step : Nat) {visited : Nat} (inTree : e.InTree q visited) :
    ∃ steps code last, visited + steps ≤ treeSize q.relus.length ∧ last.Counted q ∧
      ∀ fuel, steps ≤ fuel → SearchEngine.advanceFor world step fuel e = .ok code last := by
  have room := inTree.room
  -- Each step visits a node, and there is room for another wherever the search goes on.
  induction left : treeSize q.relus.length - visited generalizing e step visited with
  | zero => omega
  | succ left ih =>
    obtain ⟨outcome, next, run, still⟩ := (advance_operated same positive (world step)).run operated
    obtain ⟨counted, goesOn, -⟩ := (advance_inTree (world step)).ok inTree run
    cases outcome with
    | some code =>
      refine ⟨1, code, next, room, counted, fun fuel enough => ?_⟩
      obtain ⟨fuel, rfl⟩ := Nat.exists_eq_add_of_le' enough
      exact run_bind_eq_ok.mpr ⟨some code, next, run, rfl⟩
    | none =>
      have below := goesOn rfl
      obtain ⟨steps, code, last, inside, counted, ends⟩ :=
        ih still (step + 1) below below.room (by omega)
      refine ⟨steps + 1, code, last, by omega, counted, fun fuel enough => ?_⟩
      obtain ⟨fuel, rfl⟩ := Nat.exists_eq_add_of_le' (Nat.le_of_add_left_le enough)
      exact run_bind_eq_ok.mpr ⟨none, next, run, ends fuel (by omega)⟩

/-- A decision about a region of a query comes to an end after no more nodes than the tree of
all its ReLUs has, whatever the monitors say. It only ever breaks at the start, on variables
that the query does not have. -/
theorem solveWithin_ends_counted {e : DepthFirst Extended} (operated : Operated c e)
    {l : Loaded Extended} (loaded : e.loaded = some l) (split : CaseSplit Extended)
    (world : Nat → Signals) (limit : Duration) (state : Option (TreeState Extended)) :
    (∃ code last, last.Counted l.query ∧ ∀ fuel, 2 ^ (l.query.relus.length + 1) - 1 ≤ fuel →
      SearchEngine.solveWithin fuel world split limit state e = .ok code last) ∨
    ¬ split.Known l.query.size ∧ ∃ cause last,
      DepthFirst.start split limit state e = .error cause last := by
  have inside (known : split.Known l.query.size) : ∀ l' ∈ e.loaded, split.Known l'.query.size := by
    intro l' same
    obtain rfl := Option.some.inj (loaded.symm.trans same)
    exact known
  cases run : DepthFirst.start split limit state e with
  | error cause last =>
    refine .inr ⟨fun known => ?_, cause, last, rfl⟩
    obtain ⟨outcome, between, success, -⟩ :=
      (start_operated same positive split limit state).run ⟨operated, inside known⟩
    cases run.symm.trans success
  | ok outcome between =>
    refine .inl ?_
    obtain ⟨blank, begun⟩ := (start_begins_at e split limit state).ok rfl run
    cases outcome with
    | some code =>
      refine ⟨code, between, ⟨by simp [blank.nodes], by simp [blank.maxDepth]⟩, fun fuel _ => ?_⟩
      exact run_bind_eq_ok.mpr ⟨some code, between, run, rfl⟩
    | none =>
      obtain ⟨p, s, shape, begins⟩ := begun
      have query : p.query = l.query := by
        have := begins.loaded
        rw [loaded] at this
        exact (Option.some.inj this).symm
      have still : between.Operated c := by
        have after := operated.start (inside (query ▸ begins.root.known)) limit state
        rwa [run] at after
      obtain ⟨steps, code, last, few, counted, ends⟩ := advanceFor_ends same positive world still 1
        (⟨p, s, shape, query ▸ begins.visits⟩ : between.InTree l.query 0)
      refine ⟨code, last, counted, fun fuel enough => ?_⟩
      have sufficient : steps ≤ fuel := by
        rw [Nat.zero_add] at few
        exact few.trans enough
      exact run_bind_eq_ok.mpr ⟨none, between, run, ends fuel sufficient⟩

/-- Wherever a search is, at a node and where it starts to come back from one, it has branched
at most once on each ReLU. A decision about a region of the query comes to an end, of which the
number of steps that it is given is no part: no monitor has to end it. One about variables that
the query does not have may break instead, but then before its first node. -/
theorem searches_terminate :
    (∀ e, Operated c e → ∀ p s, e.session = some (p, s) →
      s.BranchesOnce p.query ∧
      ∀ found last, p.descend { s with monitors := s.monitors.map Monitor.step } = .ok found last →
        last.BranchesOnce p.query) ∧
    ∀ e, Operated c e → ∀ l, e.loaded = some l → ∀ split world limit state,
      (∃ code last, e.solve world split limit state = .ok code last ∧ last.Counted l.query ∧
        ∀ fuel, 2 ^ (l.query.relus.length + 1) - 1 ≤ fuel →
          SearchEngine.solveWithin fuel world split limit state e = .ok code last) ∨
      ¬ split.Known l.query.size ∧ ∃ cause last,
        DepthFirst.start split limit state e = .error cause last := by
  constructor
  · intro e operated p s shape
    obtain ⟨visited, -, ⟨epsilon, rational, nonneg⟩, atNode⟩ :=
      operated.visits same positive p s shape
    refine ⟨atNode.treads.branchesOnce, fun found last run => ?_⟩
    have stepped :
        Session.AtNode p.query visited { s with monitors := s.monitors.map Monitor.step } :=
      atNode.narrowed ⟨.refl, rfl, rfl, rfl⟩
    exact ((Problem.descend_treads rational nonneg).ok stepped run).1.branchesOnce
  · intro e operated l loaded split world limit state
    refine (solveWithin_ends_counted same positive operated loaded split world limit state).imp_left
      fun ⟨code, last, counted, ends⟩ => ⟨code, last, ends _ ?_, counted, ends⟩
    rw [nodeBound, loaded]
    exact Nat.sub_le _ _

end Operated

/-- A search that has branched on the only ReLU, and the decision that it is a part of. -/
theorem searches_terminate_branched :
    let settings : SearchConfig Extended :=
      ⟨finite (1 / 1000), .forrestTomlin, ⟨1, 1⟩, 1, 0, 0, 0, 1⟩
    let raw : Query Extended := { Query.unconstrained 4 with
      bounds := #v[⟨-1, 1⟩, ⟨0, 1⟩, ⟨1, 1⟩, ⟨-2, 2⟩]
      equations := [⟨[⟨1, 0⟩, ⟨1, 1⟩, ⟨-1, 2⟩, ⟨-1, 3⟩], 0⟩]
      equations_known := by decide
      relus := [⟨0, 1⟩]
      relus_known := by decide }
    let calm : Signals := ⟨false, .zero⟩
    let loaded := stateAfter (process raw true (new settings))
    let begun := stateAfter (DepthFirst.start .empty .zero none loaded)
    let branched := stateAfter (advance calm begun)
    settings.epsilon = finite (1 / 1000) ∧ (0 : ℚ) ≤ 1 / 1000 ∧ loaded.Operated settings ∧
      branched.Operated settings ∧
      (∃ p s, branched.session = some (p, s) ∧ s.stack.length = 1 ∧ s.BranchesOnce p.query) ∧
      ∃ l, loaded.loaded = some l ∧ l.query.relus.length = 1 ∧
        ∃ code last, loaded.solve (fun _ => calm) .empty .zero none = .ok code last ∧
          last.Counted l.query ∧ ∀ fuel, 2 ^ (l.query.relus.length + 1) - 1 ≤ fuel →
            SearchEngine.solveWithin fuel (fun _ => calm) .empty .zero none loaded =
              .ok code last := by
  intro settings raw calm loaded begun branched
  have positive : (0 : ℚ) ≤ 1 / 1000 := by norm_num
  have regular : raw.Regular := Query.WellFormed.regular (by decide +kernel)
  have engine : loaded.Operated settings := .process .new regular true
  have known : ∀ l ∈ loaded.loaded, (CaseSplit.empty : CaseSplit Extended).Known l.query.size := by
    simp [CaseSplit.Known, CaseSplit.empty]
  have descended : branched.Operated settings := .advance (.start engine known .zero none) calm
  obtain ⟨branches, ends⟩ := @searches_terminate settings (1 / 1000) rfl positive
  refine ⟨rfl, positive, engine, descended, ?_, ?_⟩
  · have frames : branched.session.map (·.2.stack.length) = some 1 := by decide +kernel
    obtain ⟨⟨p, s⟩, shape, one⟩ := Option.map_eq_some_iff.mp frames
    exact ⟨p, s, shape, one, (branches branched descended p s shape).1⟩
  · have relus : loaded.loaded.map (·.query.relus.length) = some 1 := by decide +kernel
    obtain ⟨l, shape, one⟩ := Option.map_eq_some_iff.mp relus
    refine ⟨l, shape, one, (ends loaded engine l shape .empty _ .zero none).resolve_right ?_⟩
    exact fun refused => refused.1 (known l shape)

end DepthFirst

end ReluSolver
