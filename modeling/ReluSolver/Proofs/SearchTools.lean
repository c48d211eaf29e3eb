import ReluSolver.Proofs.CandidateSearch
import ReluSolver.Search.Tree

/-! A step of the search puts the factorization back that it found, and only the clock
of a monitor moves. Candidates are the one place where the factorization is changed;
they give it back also where they fail. -/

namespace ReluSolver

variable {α β : Type}

/-- Two sessions work with the same factorization, under the same monitors. -/
structure Session.SameTools (first second : Session α) : Prop where
  factorization : second.factorization = first.factorization
  monitors : second.monitors = first.monitors

theorem Session.SameTools.refl (s : Session α) : s.SameTools s := ⟨rfl, rfl⟩

namespace Searching

/-- A step keeps the tools, unless it breaks a call. -/
abbrev KeepsTools (start : Session α) (step : Searching α β) : Prop :=
  Ends start.SameTools step (fun _ => start.SameTools)
    fun cause s => ∀ reason, cause = .failure reason → start.SameTools s

variable (start : Session α)

theorem ofFault_tools (result : Except Fault β) : KeepsTools start (ofFault result) :=
  (ofFault_ends fun _ _ same _ _ => same).mono fun _ _ kept => kept.1

theorem observe_tools (f : Store α → Except Fault β) : KeepsTools start (observe f) :=
  (observe_ends fun _ _ same _ _ => same).mono fun _ _ kept => kept.1

theorem count_tools (change : SearchStatistics → SearchStatistics) :
    KeepsTools start (count change) :=
  .modifyGet fun _ same => ⟨same.factorization, same.monitors⟩

theorem onStore_tools (action : Store.Action Fault α β) : KeepsTools start (onStore action) := by
  intro s same
  unfold onStore
  cases action s.store with
  | ok => exact ⟨same.factorization, same.monitors⟩
  | error => exact fun _ _ => ⟨same.factorization, same.monitors⟩

theorem modify_tools {change : Session α → Session α} {next : PUnit → Searching α β}
    (apart : ∀ s : Session α, s.SameTools (change s)) (rest : ∀ value, KeepsTools start (next value)) :
    KeepsTools start (modify change >>= next) :=
  .through (fun _ => start.SameTools) (.modifyGet fun s same =>
    ⟨(apart s).factorization.trans same.factorization, (apart s).monitors.trans same.monitors⟩) rest

end Searching

namespace Problem

open Searching

variable [Scalar α] (p : Problem α) (start : Session α)

theorem propagateNode_tools : KeepsTools start p.propagateNode := by
  intro s same
  unfold propagateNode
  cases p.effort.propagateQuery p.query p.derived s.store with
  | ok => exact ⟨same.factorization, same.monitors⟩
  | error cause =>
    cases cause with
    | conflict => exact ⟨same.factorization, same.monitors⟩
    | factorization | fault => exact fun _ _ => ⟨same.factorization, same.monitors⟩

theorem findSolution_tools : KeepsTools start p.findSolution := by
  intro s same
  have kept := findSolution_keeps p s s (.refl s)
  have restored : match p.findSolution s with
      | .ok _ last => last.factorization = s.factorization
      | .error cause last => ∀ reason, cause = .failure reason →
          last.factorization = s.factorization := by
    unfold findSolution
    split
    next result found last run =>
      split at run
      · cases run
        rfl
      · split at run <;> cases run
        rfl
    next result cause last run =>
      split at run
      · cases run
      · split at run <;> cases run
        · exact fun _ _ => rfl
        · exact nofun
  cases run : p.findSolution s with
  | ok found last =>
    rw [run] at kept restored
    exact ⟨restored.trans same.factorization, kept.1.monitors.trans same.monitors⟩
  | error cause last =>
    rw [run] at kept restored
    exact fun reason failed =>
      ⟨(restored reason failed).trans same.factorization, kept.monitors.trans same.monitors⟩

theorem visitNode_tools : KeepsTools start p.visitNode := by
  apply (count_tools start _).bind
  intro _
  apply (propagateNode_tools p start).bind
  intro goesOn
  cases goesOn with
  | false => exact .pure fun _ same => same
  | true =>
    apply (findSolution_tools p start).bind
    intro found
    cases found with
    | some values => exact .pure fun _ same => same
    | none =>
      apply (observe_tools start _).bind
      intro chosen
      cases chosen with
      | some relu => exact .pure fun _ same => same
      | none =>
        apply (count_tools start _).bind
        intro _
        exact modify_tools start (fun _ => ⟨rfl, rfl⟩) fun _ => .pure fun _ same => same

theorem enterPhase_tools (relu : Nat) (phase : Phase) :
    KeepsTools start (p.enterPhase relu phase) := by
  refine modify_tools start (fun _ => ⟨rfl, rfl⟩) fun _ => ?_
  apply (ofFault_tools start _).bind
  intro r
  apply (ofFault_tools start _).bind
  intro split
  apply (onStore_tools start _).bind
  intro outcome
  split
  · exact (count_tools start _).bind fun _ => .pure fun _ same => same
  · exact .pure fun _ same => same

omit [Scalar α] in
theorem closeCheckpoint_tools : KeepsTools start (closeCheckpoint : Searching α Unit) :=
  (observe_tools start _).bind fun _ =>
    .modifyGet fun _ same => ⟨same.factorization, same.monitors⟩

theorem backtrackFrom_tools (frames : List Frame) : KeepsTools start (p.backtrackFrom frames) := by
  induction frames with
  | nil => exact modify_tools start (fun _ => ⟨rfl, rfl⟩) fun _ => .pure fun _ same => same
  | cons frame outer ih =>
    apply (closeCheckpoint_tools start).bind
    intro _
    split
    next => exact ih
    next phase _ =>
      apply (enterPhase_tools p start frame.relu phase).bind
      intro entered
      cases entered with
      | true =>
        exact modify_tools start (fun _ => ⟨rfl, rfl⟩) fun _ => .pure fun _ same => same
      | false => exact (closeCheckpoint_tools start).bind fun _ => ih

theorem backtrack_tools : KeepsTools start p.backtrack :=
  Ends.get_bind fun s same => (backtrackFrom_tools p start s.stack).here same

theorem branch_tools (relu : Nat) : KeepsTools start (p.branch relu) := by
  apply (ofFault_tools start _).bind
  intro r
  apply (observe_tools start _).bind
  intro bounds
  dsimp only
  refine modify_tools start (fun _ => ⟨rfl, rfl⟩) fun _ => ?_
  apply (enterPhase_tools p start relu _).bind
  intro entered
  cases entered with
  | true => exact .pure fun _ same => same
  | false => exact backtrack_tools p start

theorem proceed_tools (outcome : NodeOutcome α) : KeepsTools start (p.proceed outcome) := by
  have goOn : ∀ goesOn : Bool, KeepsTools start (do
      if goesOn then return none
      return some (if (← get).inconclusive then .undecided else .exhausted) :
      Searching α (Option (Ending α))) := by
    intro goesOn
    cases goesOn with
    | true => exact .pure fun _ same => same
    | false => exact Ends.get_bind fun _ same => .pure fun _ equal => equal ▸ same
  cases outcome with
  | satisfied values => exact .pure fun _ same => same
  | branch relu => exact (branch_tools p start relu).bind goOn
  | conflict | inconclusive => exact (backtrack_tools p start).bind goOn

/-- A step of the search works with the same factorization, and advances its monitors. -/
theorem advance_tools (signals : Signals) (s : Session α) :
    Ends (· = s) (p.advance signals)
      (fun _ => { s with monitors := s.monitors.map Monitor.step }.SameTools)
      fun cause last => ∀ reason, cause = .failure reason →
        { s with monitors := s.monitors.map Monitor.step }.SameTools last := by
  let stepped := { s with monitors := s.monitors.map Monitor.step }
  apply Ends.through fun _ => (· = stepped)
  · exact .modifyGet fun _ same => same ▸ rfl
  intro _
  apply Ends.get_bind
  rintro _ rfl
  split
  · exact .pure fun _ same => same ▸ .refl stepped
  · exact ((visitNode_tools p stepped).here (.refl stepped)).bind (proceed_tools p stepped)

end Problem

end ReluSolver
