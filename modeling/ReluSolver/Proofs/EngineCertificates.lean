import ReluSolver.Proofs.EngineSoundness
import ReluSolver.Proofs.LooseVariables

/-! Every solution that an engine reports passes the test of its query, and has a rational
for each variable that nothing is about. -/

namespace ReluSolver

open Extended

variable {q : Query Extended} {epsilon : Extended}

/-- What a reported solution is good for. -/
structure Query.Certificate (q : Query Extended) (epsilon : Extended)
    (values : Assignment Extended) : Prop where
  satisfied : q.isSatisfiedBy values ⟨epsilon⟩ = .ok true
  rational : ∀ v, q.Loose v → RationalAt v values

namespace Problem

open Searching

variable {p : Problem Extended}

/-- A search for the solutions of a query. -/
structure Asks (q : Query Extended) (epsilon : Extended) (p : Problem Extended) : Prop where
  query : p.query = q
  tolerance : p.effort.tolerance = ⟨epsilon⟩
  avoids : ∀ v, q.Loose v → p.Avoids v

namespace Asks

variable (asks : p.Asks q epsilon)
include asks

theorem findSolution_certified :
    Gives p.findSolution fun found => ∀ values, found = some values → q.Certificate epsilon values := by
  intro s _
  cases run : p.findSolution s with
  | error => trivial
  | ok found last =>
    rintro values rfl
    have passed := (((p.findSolution_keeps s).ok (.refl s) run).2 values rfl).satisfied
    rw [asks.query, asks.tolerance] at passed
    exact ⟨passed, fun v loose => (asks.avoids v loose).findSolution_rational.ok trivial run values rfl⟩

theorem visitNode_certified :
    Gives p.visitNode fun outcome => ∀ values, outcome = .satisfied values →
      q.Certificate epsilon values := by
  apply Gives.bind (.anything _)
  intro _ _
  apply Gives.bind (.anything _)
  intro goesOn _
  cases goesOn with
  | false => exact .pure fun _ same => nomatch same
  | true =>
    apply asks.findSolution_certified.bind
    intro found certified
    cases found with
    | some values => exact .pure fun other same => NodeOutcome.satisfied.inj same ▸ certified values rfl
    | none =>
      apply Gives.bind (.anything _)
      intro chosen _
      cases chosen with
      | some relu => exact .pure fun _ same => nomatch same
      | none =>
        apply Gives.bind (.anything _)
        intro _ _
        apply Gives.bind (.anything _)
        exact fun _ _ => .pure fun _ same => nomatch same

omit asks in
theorem proceed_certified {outcome : NodeOutcome Extended}
    (certified : ∀ values, outcome = .satisfied values → q.Certificate epsilon values) :
    Gives (p.proceed outcome) fun ending => ∀ values, ending = some (.satisfied values) →
      q.Certificate epsilon values := by
  have goOn : ∀ goesOn : Bool, Gives
      (do
        if goesOn then return none
        return some (if (← get).inconclusive then .undecided else .exhausted) :
        Searching Extended (Option (Ending Extended)))
      fun ending => ∀ values, ending = some (.satisfied values) → q.Certificate epsilon values := by
    intro goesOn
    cases goesOn with
    | true => exact .pure fun _ same => nomatch same
    | false =>
      apply Gives.bind (.anything _)
      intro s _
      refine .pure fun values same => ?_
      split at same <;> cases same
  cases outcome with
  | satisfied values =>
    exact .pure fun other same => Ending.satisfied.inj (Option.some.inj same) ▸ certified values rfl
  | branch relu => exact Gives.bind (.anything _) fun goesOn _ => goOn goesOn
  | conflict | inconclusive => exact Gives.bind (.anything _) fun goesOn _ => goOn goesOn

/-- A step of a search ends it satisfied only with a certificate. -/
theorem advance_certified (signals : Signals) :
    Gives (p.advance signals) fun ending => ∀ values, ending = some (.satisfied values) →
      q.Certificate epsilon values := by
  apply Gives.bind (.anything _)
  intro _ _
  apply Gives.bind (.anything _)
  intro s _
  split
  · refine .pure fun values same => ?_
    cases quit : signals.quit <;> rw [quit] at same <;> cases same
  · exact asks.visitNode_certified.bind fun _ certified => proceed_certified certified

end Asks

end Problem

namespace DepthFirst

variable {e : DepthFirst Extended}

/-- The engine has loaded a query. -/
structure Searches (q : Query Extended) (epsilon : Extended) (e : DepthFirst Extended) : Prop where
  configured : e.config.epsilon = epsilon
  loaded : ∃ l, e.loaded = some l ∧ l.query = q ∧ CrashBasis.compute q ⟨epsilon⟩ = .ok l.basis

def Underway (q : Query Extended) (epsilon : Extended) (e : DepthFirst Extended) : Prop :=
  ∃ p s, e.session = some (p, s) ∧ p.Asks q epsilon

def Certified (q : Query Extended) (epsilon : Extended) (e : DepthFirst Extended) : Prop :=
  ∃ values, e.solution? = some values ∧ q.Certificate epsilon values

/-- What a step of a decision comes to. -/
structure Decides (q : Query Extended) (epsilon : Extended) (outcome : Option ExitCode)
    (e : DepthFirst Extended) : Prop where
  underway : outcome = none → e.Underway q epsilon
  certified : outcome = some .sat → e.Certified q epsilon

theorem SameQuery.searches {first second : DepthFirst Extended} (same : first.SameQuery second)
    (searches : first.Searches q epsilon) : second.Searches q epsilon := by
  obtain ⟨l, shape, query, computed⟩ := searches.loaded
  obtain ⟨f, kept⟩ := same.loaded_eq shape
  exact ⟨by rw [same.config, searches.configured], _, kept, query, computed⟩

theorem load_searches (map : VariableMap Extended) :
    Ends (·.config.epsilon = epsilon) (load q map)
      (fun loaded e => loaded = true → e.Searches q epsilon ∧ SearchEngine.map? e = some map)
      fun _ _ => True := by
  apply Ends.get_bind
  intro e shape
  apply (ofFault_ends fun _ _ _ => trivial).bind
  intro t
  apply Ends.from_state
  rintro _ ⟨rfl, made⟩
  obtain ⟨rfl, -⟩ := Tolerance.ofEpsilon_valid made
  rw [shape]
  cases computed : CrashBasis.compute q ⟨epsilon⟩ with
  | error cause => exact Ends.anything.bind fun _ => .pure fun _ _ same => nomatch same
  | ok b =>
    apply (ofFactor_ends fun _ _ _ => trivial).bind
    rintro ⟨f, derived⟩
    refine Ends.through (fun _ e => e.Searches q epsilon ∧ SearchEngine.map? e = some map)
      (.modifyGet ?_) fun _ => .pure fun _ holds _ => holds
    rintro _ ⟨rfl, -⟩
    exact ⟨⟨shape, _, rfl, rfl, computed⟩, rfl⟩

theorem prepare_decides (split : CaseSplit Extended) (limit : Duration)
    (state : Option (TreeState Extended)) :
    Ends (Searches q epsilon) (prepare split limit state)
      (fun outcome e => outcome ≠ some .sat ∧ (outcome = none → e.Underway q epsilon))
      fun _ _ => True := by
  have refused : ∀ e : DepthFirst Extended, (some ExitCode.unsat ≠ some .sat) ∧
      (some ExitCode.unsat = none → e.Underway q epsilon) := fun _ => ⟨by decide, nofun⟩
  apply Ends.get_bind
  intro e searches
  apply (ofFault_ends fun _ _ _ => trivial).bind
  intro effort
  apply Ends.get_bind
  rintro _ ⟨rfl, made⟩
  obtain ⟨tolerance, r, rational, positive⟩ := SearchConfig.effort_valid made
  obtain ⟨l, shape, rfl, computed⟩ := searches.loaded
  rw [searches.configured] at tolerance rational
  rw [shape]
  apply Ends.anything.bind
  intro empty
  apply Ends.anything.bind
  rintro ⟨_, bounded⟩
  apply Ends.anything.bind
  intro warm
  cases warm with
  | none => exact .pure fun e _ => refused e
  | some warm =>
    apply Ends.anything.bind
    intro root
    cases root with
    | none => exact .pure fun e _ => refused e
    | some root =>
      refine Ends.through (fun _ => Underway l.query epsilon) (.modifyGet fun e _ => ?_)
        fun _ => .pure fun _ underway => ⟨nofun, fun _ => underway⟩
      refine ⟨_, _, rfl, rfl, tolerance, fun v loose => ?_⟩
      exact Problem.avoids_of_loose (t := ⟨epsilon⟩) rational positive computed loose

theorem start_decides (split : CaseSplit Extended) (limit : Duration)
    (state : Option (TreeState Extended)) :
    Ends (Searches q epsilon) (DepthFirst.start split limit state) (Decides q epsilon)
      fun _ _ => True := by
  intro e searches
  have prepared := prepare_decides split limit state
    { e with solution := none, rootState := none, statistics := .zero, session := none }
    ⟨searches.configured, searches.loaded⟩
  unfold DepthFirst.start
  dsimp only
  cases run : prepare split limit state
    { e with solution := none, rootState := none, statistics := .zero, session := none } with
  | ok outcome last =>
    rw [run] at prepared
    cases outcome with
    | none => exact ⟨prepared.2, nofun⟩
    | some code => exact ⟨nofun, fun same => absurd same prepared.1⟩
  | error cause last =>
    cases cause with
    | failure => exact ⟨nofun, fun same => nomatch same⟩
    | fault => trivial

theorem advance_decides (signals : Signals) :
    Ends (Underway q epsilon) (advance signals) (Decides q epsilon) fun _ _ => True := by
  rintro e ⟨p, s, shape, asks⟩
  have reached := asks.advance_certified signals s trivial
  unfold advance
  rw [shape]
  dsimp only
  cases run : p.advance signals s with
  | ok ending last =>
    rw [run] at reached
    cases ending with
    | none => exact ⟨fun _ => ⟨p, last, rfl, asks⟩, nofun⟩
    | some ending =>
      refine ⟨nofun, fun same => ?_⟩
      cases ending with
      | satisfied values => exact ⟨values, rfl, reached values rfl⟩
      | exhausted | undecided | quit => cases same
  | error cause last =>
    cases cause with
    | failure => exact ⟨nofun, fun same => nomatch same⟩
    | fault => trivial

end DepthFirst

end ReluSolver
