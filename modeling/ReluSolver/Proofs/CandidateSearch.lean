import ReluSolver.Proofs.Steps
import ReluSolver.Search.Candidate

/-! Looking for a solution leaves the search tree alone: the bounds, the branches, the
verdict on earlier leaves, the monitors and the counts of the tree are the same
afterwards. What it finds passed the query's own test, within the current bounds. -/

namespace ReluSolver

variable {α : Type}

/-- Two sessions are at the same place of the search tree. -/
structure Session.SameTree (first second : Session α) : Prop where
  store : second.store = first.store
  stack : second.stack = first.stack
  inconclusive : second.inconclusive = first.inconclusive
  monitors : second.monitors = first.monitors
  nodes : second.statistics.nodes = first.statistics.nodes
  maxDepth : second.statistics.maxDepth = first.statistics.maxDepth

theorem Session.SameTree.refl (s : Session α) : s.SameTree s := ⟨rfl, rfl, rfl, rfl, rfl, rfl⟩

namespace Searching

variable {β : Type} {pre : Session α → Prop} {stuck : Abort → Session α → Prop}

theorem ofFault_ends {result : Except Fault β}
    (failed : ∀ cause s, pre s → stuck cause s) :
    Ends pre (ofFault result : Searching α β) (fun value s => pre s ∧ result = .ok value) stuck := by
  intro s holds
  cases result with
  | ok value => exact ⟨holds, rfl⟩
  | error cause => exact failed _ s holds

theorem ofFactor_ends {result : Except FactorError β}
    (failed : ∀ cause s, pre s → stuck cause s) :
    Ends pre (ofFactor result : Searching α β) (fun value s => pre s ∧ result = .ok value) stuck := by
  intro s holds
  cases result with
  | ok value => exact ⟨holds, rfl⟩
  | error cause => exact failed _ s holds

theorem observe_ends {f : Store α → Except Fault β} (failed : ∀ cause s, pre s → stuck cause s) :
    Ends pre (observe f) (fun value s => pre s ∧ f s.store = .ok value) stuck := by
  apply Ends.get_bind
  intro s holds
  refine (ofFault_ends fun cause _ same => failed cause _ (same ▸ holds)).mono ?_
  rintro value last ⟨rfl, read⟩
  exact ⟨holds, read⟩

variable (start : Session α)

theorem draw_keeps (f : RandomStream → Except Fault (β × RandomStream)) :
    Preserves start.SameTree (draw f) := by
  apply Ends.get_bind
  intro s holds
  apply (ofFault_ends fun _ _ same => same ▸ holds).bind
  intro drawn
  apply Ends.through fun _ => start.SameTree
  · refine .modifyGet fun last same => ?_
    rw [same.1]
    exact ⟨holds.store, holds.stack, holds.inconclusive, holds.monitors, holds.nodes,
      holds.maxDepth⟩
  · exact fun _ => .pure fun _ kept => kept

theorem count_keeps {change : SearchStatistics → SearchStatistics}
    (beside : ∀ n, (change n).nodes = n.nodes ∧ (change n).maxDepth = n.maxDepth) :
    Preserves start.SameTree (count change) :=
  .modifyGet fun s same => ⟨same.store, same.stack, same.inconclusive, same.monitors,
    (beside s.statistics).1.trans same.nodes, (beside s.statistics).2.trans same.maxDepth⟩

end Searching

namespace Problem

open Searching

variable [Scalar α] (p : Problem α) (start : Session α)

theorem exchangeAt_ends (invariant : Array Variable → Session α → Prop)
    {stuck : Abort → Session α → Prop}
    (failed : ∀ cause basic s f, invariant basic s → stuck cause { s with factorization := f })
    (exchange : ∀ {basic s f k attempts left entering column exchanged changed}, invariant basic s →
      p.findEntering f s.store basic k attempts p.basis.nonBasic = .ok (some (entering, column), left) →
      f.push k column = .ok exchanged → replace basic k entering = .ok changed →
      invariant changed { s with factorization := some exchanged })
    (basic : Array Variable) (attempts : Nat) (positions : List Nat) :
    Ends (invariant basic) (p.exchangeAt basic attempts positions) invariant stuck := by
  induction positions generalizing basic attempts with
  | nil =>
    unfold exchangeAt
    exact .pure fun _ kept => kept
  | cons k rest ih =>
    cases attempts with
    | zero => exact .pure fun _ kept => kept
    | succ attempts =>
      apply Ends.get_bind
      intro s kept
      have aborts {t : Session α} (cause : Abort) (same : t = s) : stuck cause t :=
        same ▸ failed cause basic s s.factorization kept
      apply (ofFault_ends fun cause _ => aborts cause).bind
      intro x
      apply Ends.from_state
      rintro _ ⟨rfl, -⟩
      split
      next => exact .pure fun _ same => same ▸ kept
      next f _ =>
        apply (observe_ends fun cause _ => aborts cause).bind
        intro fixed
        apply Ends.from_state
        rintro _ ⟨rfl, -⟩
        split
        next =>
          apply (ofFault_ends fun cause _ => aborts cause).bind
          rintro ⟨found, left⟩
          apply Ends.from_state
          rintro last ⟨rfl, searched⟩
          dsimp only
          split
          next => exact (ih basic _).here kept
          next entering column =>
            split
            next exchanged pushed =>
              apply Ends.through fun _ t => t = { last with factorization := some exchanged }
              · exact .set fun _ _ => rfl
              intro _
              apply (ofFault_ends fun cause _ same => same ▸ failed cause basic last _ kept).bind
              intro changed
              apply Ends.from_state
              rintro _ ⟨rfl, placed⟩
              exact (ih changed _).here (exchange kept searched pushed placed)
            next => exact (ih basic _).here kept
            next => exact .throw fun _ => aborts _
        next => exact (ih basic _).here kept

theorem exchangeAt_keeps (basic : Array Variable) (attempts : Nat) (positions : List Nat) :
    Preserves start.SameTree (p.exchangeAt basic attempts positions) := by
  have kept {s : Session α} (same : start.SameTree s) (f : Option (Factorization α)) :
      start.SameTree { s with factorization := f } :=
    ⟨same.store, same.stack, same.inconclusive, same.monitors, same.nodes, same.maxDepth⟩
  exact p.exchangeAt_ends (fun _ => start.SameTree) (fun _ _ _ f same => kept same f)
    (fun same _ _ _ => kept same _) basic attempts positions

theorem solveBasics_keeps (basic : Array Variable) (values : Assignment α) :
    Preserves start.SameTree (p.solveBasics basic values) := by
  apply Ends.get_bind
  intro s same
  split
  next => exact .pure fun _ equal => equal ▸ same
  next f _ =>
    split
    next => exact .pure fun _ equal => equal ▸ same
    next =>
      apply (ofFault_ends fun _ _ equal => equal ▸ same).bind
      intro right
      apply (ofFactor_ends fun _ _ equal => equal.1 ▸ same).bind
      intro solved
      exact (ofFault_ends fun _ _ equal => equal.1.1 ▸ same).mono fun _ _ equal => equal.1.1.1 ▸ same

theorem repairFor_keeps (basic : Array Variable) (rounds : Nat) (values : Assignment α) :
    Preserves start.SameTree (p.repairFor basic rounds values) := by
  induction rounds generalizing values with
  | zero => exact .pure fun _ same => same
  | succ rounds ih =>
    apply (solveBasics_keeps p start basic values).bind
    intro solved
    apply (ofFault_ends fun _ _ same => same).bind
    intro repaired
    split
    next => exact .pure fun _ same => same.1
    next => exact (ih _).weaken (fun _ same => same.1) (fun _ _ same => same) fun _ _ same => same

omit [Scalar α] in
theorem assignEach_keeps {pick : Interval α → Searching α α}
    (picks : ∀ bounds, Preserves start.SameTree (pick bounds)) (xs : List Variable)
    (values : Assignment α) : Preserves start.SameTree (assignEach pick xs values) := by
  induction xs generalizing values with
  | nil => exact .pure fun _ same => same
  | cons x rest ih =>
    apply (observe_ends fun _ _ same => same).bind
    intro bounds
    apply Ends.bind ((picks bounds).strengthen fun _ same => same.1)
    intro value
    exact ((ofFault_ends fun _ _ same => same).mono fun _ _ kept => kept.1).bind fun _ => ih _

/-- A candidate that counts as a solution: it passes the test of the query, and it is within the
bounds of a session. -/
structure Accepts (p : Problem α) (s : Session α) (candidate : Assignment α) : Prop where
  satisfied : p.query.isSatisfiedBy candidate p.effort.tolerance = .ok true
  within : isWithin p.effort.tolerance s.store candidate = true

theorem tryCandidate_keeps (basic : Array Variable) {pick : Interval α → Searching α α}
    (picks : ∀ bounds, Preserves start.SameTree (pick bounds)) (values : Assignment α) :
    Ends start.SameTree (p.tryCandidate basic pick values)
      (fun result last => start.SameTree last ∧ (result.1 = true → p.Accepts start result.2))
      fun _ => start.SameTree := by
  apply (assignEach_keeps start picks _ values).bind
  intro picked
  apply (repairFor_keeps p start basic _ picked).bind
  intro repaired
  apply (solveBasics_keeps p start basic repaired).bind
  intro candidate
  refine (count_keeps start fun n => ?_).bind fun _ => ?_
  · exact ⟨rfl, rfl⟩
  apply Ends.get_bind
  intro s same
  split
  next inside =>
    apply (ofFault_ends fun _ _ equal => equal ▸ same).bind
    intro accepted
    refine .pure fun _ read => ⟨read.1 ▸ same, fun yes => ⟨?_, same.store ▸ inside⟩⟩
    rw [read.2, show accepted = true from yes]
  next => exact .pure fun _ equal => ⟨equal ▸ same, nofun⟩

theorem tryRandom_keeps (basic : Array Variable) (attempts : Nat) (values : Assignment α) :
    Ends start.SameTree (p.tryRandom basic attempts values)
      (fun found last => start.SameTree last ∧ ∀ candidate, found = some candidate →
        p.Accepts start candidate)
      fun _ => start.SameTree := by
  induction attempts generalizing values with
  | zero => exact .pure fun _ same => ⟨same, nofun⟩
  | succ attempts ih =>
    apply (tryCandidate_keeps p start basic (fun _ => draw_keeps start _) values).bind
    rintro ⟨isSolution, candidate⟩
    dsimp only
    split
    next yes =>
      refine .pure fun _ tried => ⟨tried.1, fun other same => ?_⟩
      rw [← Option.some.inj same]
      exact tried.2 yes
    next =>
      exact (ih candidate).strengthen fun _ tried => tried.1

theorem tryCandidates_keeps :
    Ends start.SameTree p.tryCandidates
      (fun found last => start.SameTree last ∧ ∀ candidate, found = some candidate →
        p.Accepts start candidate)
      fun _ => start.SameTree := by
  apply (exchangeAt_keeps p start _ _ _).bind
  intro basic
  apply (tryCandidate_keeps p start basic (fun _ => .pure fun _ same => same) _).bind
  rintro ⟨isSolution, candidate⟩
  dsimp only
  split
  next yes =>
    refine .pure fun _ tried => ⟨tried.1, fun other same => ?_⟩
    rw [← Option.some.inj same]
    exact tried.2 yes
  next =>
    exact (tryRandom_keeps p start basic _ candidate).strengthen fun _ tried => tried.1

/-- Looking for a solution gives one that passes both tests, or none. -/
theorem findSolution_keeps :
    Ends start.SameTree p.findSolution
      (fun found last => start.SameTree last ∧ ∀ candidate, found = some candidate →
        p.Accepts start candidate)
      fun _ => start.SameTree := by
  intro s same
  have tried := tryCandidates_keeps p start s same
  unfold findSolution
  split
  next result found t run =>
    split at run
    · cases run
      exact ⟨same, nofun⟩
    · split at run
      next candidate last inner =>
        cases run
        rw [inner] at tried
        exact ⟨⟨tried.1.store, tried.1.stack, tried.1.inconclusive, tried.1.monitors, tried.1.nodes,
          tried.1.maxDepth⟩, tried.2⟩
      next => cases run
      next => cases run
  next result cause t run =>
    split at run
    · cases run
    · split at run
      next => cases run
      next inner =>
        cases run
        rw [inner] at tried
        exact ⟨tried.store, tried.stack, tried.inconclusive, tried.monitors, tried.nodes,
          tried.maxDepth⟩
      next inner =>
        cases run
        rw [inner] at tried
        exact tried

end Problem

end ReluSolver
