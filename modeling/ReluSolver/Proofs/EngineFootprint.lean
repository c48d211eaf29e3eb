import ReluSolver.Proofs.EngineSoundness
import ReluSolver.Proofs.SearchTools

/-! What an engine works with stays as it was loaded. It depends on the processed query
and the settings only, every search gives the factorization back, and a tree state that
an engine of this kind left brings the factorization that is there already. -/

namespace ReluSolver

variable {α : Type}

theorem Factorization.restoreFrom_self (f : Factorization α) : f.restoreFrom f = .ok f := by
  simp [restoreFrom, checkExchange, checkLength, bind, Except.bind, pure, Except.pure]

variable [Scalar α]

/-- What is loaded for a query is the crash basis and its factorization. -/
structure Loaded.Original (c : SearchConfig α) (l : Loaded α) : Prop where
  computed : ∃ t, c.tolerance = .ok t ∧ CrashBasis.compute l.query t = .ok l.basis ∧
    DepthFirst.factorize c t l.basis = .ok (l.factorization, l.derived)

theorem Loaded.Original.eq {c : SearchConfig α} {first second : Loaded α} (original : first.Original c)
    (other : second.Original c) (same : second.query = first.query) :
    second = { first with map := second.map } := by
  obtain ⟨t, made, basis, factorized⟩ := original.computed
  obtain ⟨u, made', basis', factorized'⟩ := other.computed
  obtain rfl : t = u := Except.ok.inj (made.symm.trans made')
  obtain ⟨q, m, b, f, d⟩ := first
  obtain ⟨q', m', b', f', d'⟩ := second
  subst same
  obtain rfl : b = b' := Except.ok.inj (basis.symm.trans basis')
  have parts := Except.ok.inj (factorized.symm.trans factorized')
  simp only [Prod.mk.injEq] at parts
  obtain ⟨rfl, rfl⟩ := parts
  rfl

theorem Loaded.eq_of_original {c : SearchConfig α} {first second : Option (Loaded α)}
    (original : ∀ l ∈ first, l.Original c) (other : ∀ l ∈ second, l.Original c)
    (same : second.map (·.query) = first.map (·.query)) :
    ∃ map, second = first.map ({ · with map := map }) := by
  cases first with
  | none => exact ⟨VariableMap.identity 0, by simpa using same⟩
  | some l =>
    obtain ⟨l', rfl, query⟩ := Option.map_eq_some_iff.mp same
    exact ⟨l'.map, congrArg some ((original l rfl).eq (other l' rfl) query)⟩

namespace DepthFirst

/-- An engine that works with what it has loaded, also in its tree state and its session. -/
structure Intact (c : SearchConfig α) (given : Option (Loaded α)) (e : DepthFirst α) : Prop where
  config : e.config = c
  loaded : e.loaded = given
  root : ∀ state ∈ e.rootState, state.factorization = given.bind (·.factorization)
  session : ∀ held ∈ e.session, held.2.factorization = given.bind (·.factorization)

section Intact

variable {c : SearchConfig α} {given : Option (Loaded α)}

omit [Scalar α] in
theorem takeFactorization_intact {state : TreeState α}
    (fits : state.factorization = given.bind (·.factorization)) :
    Preserves (Intact c given) (takeFactorization state) := by
  refine .modifyGet fun e intact => ?_
  dsimp only
  split
  next l source shape brought =>
    split
    next => exact intact
    next target present =>
      rw [← intact.loaded, shape, brought, Option.bind_some, present] at fits
      obtain rfl := Option.some.inj fits
      rw [Factorization.restoreFrom_self]
      refine ⟨intact.config, ?_, intact.root, intact.session⟩
      obtain ⟨q, m, b, f, d⟩ := l
      cases present
      rw [← intact.loaded, shape]
  next => exact intact

theorem warmStart_intact {state : Option (TreeState α)}
    (fits : ∀ earlier ∈ state, earlier.factorization = given.bind (·.factorization)) (s : Store α) :
    Preserves (Intact c given) (warmStart s state) := by
  unfold warmStart
  cases state with
  | none => exact .pure fun _ intact => intact
  | some state =>
    apply ((onStore_ends fun _ _ intact => intact).mono fun _ _ kept => kept.1).bind
    rintro ⟨result, s⟩
    cases result with
    | error cause => exact .throw fun _ intact => intact
    | ok outcome =>
      dsimp only
      split
      · exact .pure fun _ intact => intact
      · exact (takeFactorization_intact (fits state rfl)).bind fun _ => .pure fun _ intact => intact

theorem propagateRoot_intact (effort : Effort α) (split : CaseSplit α) (s : Store α) (q : Query α)
    (derived : List (Equation α)) :
    Preserves (Intact c given) (propagateRoot effort split s q derived) := by
  apply ((onStore_ends fun _ _ intact => intact).mono fun _ _ kept => kept.1).bind
  rintro ⟨outcome, s⟩
  dsimp only
  split
  · exact .pure fun _ intact => intact
  · cases effort.propagateQuery q derived s with
    | ok news last =>
      refine Ends.through (fun _ => Intact c given) ?_ fun _ => .pure fun _ intact => intact
      exact .modifyGet fun _ intact => ⟨intact.config, intact.loaded, intact.root, intact.session⟩
    | error cause last =>
      cases cause with
      | conflict => exact .pure fun _ intact => intact
      | factorization | fault => exact .throw fun _ intact => intact

theorem prepare_intact (split : CaseSplit α) (limit : Duration) {state : Option (TreeState α)}
    (fits : ∀ earlier ∈ state, earlier.factorization = given.bind (·.factorization)) :
    Preserves (Intact c given) (prepare split limit state) := by
  apply Ends.get_bind
  intro e intact
  apply ((ofFault_ends fun _ _ same => same ▸ intact).mono fun _ _ kept => kept.1).bind
  intro effort
  apply Ends.get_bind
  rintro _ rfl
  split
  next l shape =>
    apply ((ofFault_ends fun _ _ same => same ▸ intact).mono fun _ _ kept => kept.1).bind
    intro empty
    apply ((onStore_ends fun _ _ same => same ▸ intact).mono fun _ _ kept => kept.1).bind
    rintro ⟨_, bounded⟩
    apply ((warmStart_intact fits bounded).here intact).bind
    intro warm
    cases warm with
    | none => exact .pure fun _ intact => intact
    | some warm =>
      apply (propagateRoot_intact effort split warm l.query l.derived).bind
      intro root
      cases root with
      | none => exact .pure fun _ intact => intact
      | some root =>
        refine Ends.through (fun _ => Intact c given) (.modifyGet fun e intact => ?_) fun _ =>
          .pure fun _ intact => intact
        refine ⟨intact.config, intact.loaded, fun state same => ?_, fun held same => ?_⟩
        · obtain rfl := Option.some.inj same
          exact congrArg (Option.bind · _) intact.loaded
        · obtain rfl := Option.some.inj same
          exact congrArg (Option.bind · _) intact.loaded
  next => exact .throw fun _ same => same ▸ intact

omit [Scalar α] in
theorem finish_intact {e : DepthFirst α} (intact : Intact c given e) (code : ExitCode) :
    Intact c given (e.finish code) :=
  ⟨intact.config, intact.loaded, intact.root, by simp [finish]⟩

theorem start_intact (split : CaseSplit α) (limit : Duration) {state : Option (TreeState α)}
    (fits : ∀ earlier ∈ state, earlier.factorization = given.bind (·.factorization)) :
    Preserves (Intact c given) (DepthFirst.start split limit state) := by
  intro e intact
  have kept := prepare_intact split limit fits
    { e with solution := none, rootState := none, statistics := .zero, session := none }
    ⟨intact.config, intact.loaded, by simp, by simp⟩
  unfold DepthFirst.start
  dsimp only
  cases run : prepare split limit state
    { e with solution := none, rootState := none, statistics := .zero, session := none } with
  | ok outcome last =>
    have kept : Intact c given last := by rwa [run] at kept
    cases outcome with
    | none => exact kept
    | some code => exact finish_intact kept code
  | error cause last =>
    have kept : Intact c given last := by rwa [run] at kept
    cases cause with
    | failure => exact finish_intact kept .error
    | fault => exact kept

omit [Scalar α] in
theorem keep_intact {e : DepthFirst α} (intact : Intact c given e) {p : Problem α} {s last : Session α}
    (shape : e.session = some (p, s)) (same : last.factorization = s.factorization)
    (elapsed : Duration) :
    Intact c given (e.keep p last elapsed) := by
  have factorization := same.trans (intact.session (p, s) shape)
  refine ⟨intact.config, ?_, intact.root, fun held kept => ?_⟩
  · rw [keep, intact.loaded, factorization]
    cases given <;> rfl
  · obtain rfl := Option.some.inj kept
    exact factorization

theorem advance_intact (signals : Signals) :
    Ends (Intact c given) (advance signals) (fun _ => Intact c given) fun _ _ => True := by
  intro e intact
  unfold advance
  cases shape : e.session with
  | none => exact intact
  | some held =>
    obtain ⟨p, s⟩ := held
    dsimp only
    cases run : p.advance signals s with
    | ok ending last =>
      have tools := (p.advance_tools signals s).ok rfl run
      have kept := keep_intact intact shape tools.factorization signals.elapsed
      cases ending with
      | none => exact kept
      | some ending => exact ⟨kept.config, kept.loaded, kept.root, by simp [finish]⟩
    | error cause last =>
      cases cause with
      | failure reason =>
        have tools := (p.advance_tools signals s).error rfl run
        have kept := keep_intact intact shape (tools reason rfl).factorization signals.elapsed
        exact finish_intact kept .error
      | fault => trivial

theorem solveWithin_intact (fuel : Nat) (world : Nat → Signals) (split : CaseSplit α)
    (limit : Duration) {state : Option (TreeState α)}
    (fits : ∀ earlier ∈ state, earlier.factorization = given.bind (·.factorization)) :
    Ends (Intact c given)
      (SearchEngine.solveWithin fuel world split limit state : EStateM Fault (DepthFirst α) ExitCode)
      (fun _ => Intact c given) fun _ _ => True := by
  have begins : Ends (Intact c given) (DepthFirst.start split limit state) (fun _ => Intact c given)
      fun _ _ => True :=
    (start_intact split limit fits).weaken (fun _ intact => intact) (fun _ _ intact => intact)
      fun _ _ _ => trivial
  exact SearchEngine.solveWithin_ends begins advance_intact (fun _ _ => trivial) fuel world

end Intact

/-- An engine that was given a query and has not decided anything about it. -/
structure Unused (c : SearchConfig α) (e : DepthFirst α) : Prop where
  config : e.config = c
  loaded : ∀ l ∈ e.loaded, l.Original c
  root : e.rootState = none
  session : e.session = none

section Unused

variable {c : SearchConfig α}

theorem load_unused (q : Query α) (map : VariableMap α) :
    Ends (fun e => e.Unused c) (load q map) (fun _ e => e.Unused c) fun _ e => e.Unused c := by
  apply Ends.get_bind
  intro e unused
  apply (ofFault_ends fun _ _ same => same ▸ unused).bind
  intro t
  apply Ends.from_state
  rintro _ ⟨rfl, made⟩
  cases computed : CrashBasis.compute q t with
  | error =>
    refine Ends.through (fun _ e => e.Unused c) (.modifyGet ?_) fun _ => .pure fun _ kept => kept
    exact fun _ same => same ▸ ⟨unused.config, unused.loaded, unused.root, unused.session⟩
  | ok basis =>
    apply (ofFactor_ends fun _ _ same => same ▸ unused).bind
    rintro ⟨f, derived⟩
    refine Ends.through (fun _ e => e.Unused c) (.modifyGet ?_) fun _ => .pure fun _ kept => kept
    rintro _ ⟨rfl, factorized⟩
    rw [unused.config] at made factorized
    refine ⟨unused.config, fun l same => ?_, unused.root, unused.session⟩
    obtain rfl := Option.some.inj same
    exact ⟨t, made, computed, factorized⟩

/-- Whatever comes of it, a query that is processed leaves an unused engine. -/
theorem process_unused (raw : Query α) (simplified : Bool) :
    Ends (fun e => e.config = c) (process raw simplified) (fun _ e => e.Unused c)
      fun _ e => e.Unused c := by
  apply Ends.through fun _ e => e.Unused c
  · exact .modifyGet fun e same => ⟨same, by simp [reset, new], rfl, rfl⟩
  intro _
  split
  next => exact load_unused raw _
  next =>
    apply Ends.get_bind
    intro e unused
    apply (ofFault_ends fun _ _ same => same ▸ unused).bind
    intro effort
    apply Ends.from_state
    rintro _ ⟨rfl, -⟩
    split
    next simpler map _ => exact (load_unused simpler map).here unused
    next =>
      refine Ends.through (fun _ e => e.Unused c) (.modifyGet ?_) fun _ => .pure fun _ kept => kept
      exact fun _ same => same ▸ ⟨unused.config, unused.loaded, unused.root, unused.session⟩
    next => exact .throw fun _ same => same ▸ unused
    next => exact .throw fun _ same => same ▸ unused

end Unused

/-- The engines that have processed a query, here the processed one if there is one, and have decided
regions of it since then, each from nothing or from the tree state of an engine of this kind. -/
inductive Reused (c : SearchConfig α) (q : Option (Query α)) : DepthFirst α → Prop where
  | process {e : DepthFirst α} (settings : e.config = c) (raw : Query α) (simplified : Bool)
      (processed : (stateAfter (process raw simplified e)).loaded.map (·.query) = q) :
      Reused c q (stateAfter (process raw simplified e))
  | diversify {e : DepthFirst α} (before : Reused c q e) (seed : UInt64)
      (heuristic : BranchingHeuristic) : Reused c q (e.diversify seed heuristic)
  | cold {e last : DepthFirst α} (before : Reused c q e) {fuel : Nat} {world : Nat → Signals}
      {split : CaseSplit α} {limit : Duration} {code : ExitCode}
      (run : SearchEngine.solveWithin fuel world split limit none e = .ok code last) : Reused c q last
  | warm {e other last : DepthFirst α} (before : Reused c q e) (source : Reused c q other)
      {state : TreeState α} (left : other.rootState = some state) {fuel : Nat}
      {world : Nat → Signals} {split : CaseSplit α} {limit : Duration} {code : ExitCode}
      (run : SearchEngine.solveWithin fuel world split limit (some state) e = .ok code last) :
      Reused c q last

section Reused

variable {c : SearchConfig α} {q : Option (Query α)}

theorem Reused.intact {e : DepthFirst α} (reused : Reused c q e) :
    ∃ given : Option (Loaded α), given.map (·.query) = q ∧ (∀ l ∈ given, l.Original c) ∧
      Intact c given e := by
  induction reused with
  | @process e settings raw simplified processed =>
    have unused : (stateAfter (DepthFirst.process raw simplified e)).Unused c := by
      have ends := process_unused raw simplified e settings
      cases run : DepthFirst.process raw simplified e <;> rwa [run] at ends
    refine ⟨_, processed, unused.loaded, unused.config, rfl, ?_, ?_⟩
    · simp [unused.root]
    · simp [unused.session]
  | diversify _ _ _ ih =>
    obtain ⟨given, query, original, intact⟩ := ih
    exact ⟨given, query, original, intact.config, intact.loaded, intact.root, intact.session⟩
  | cold _ run ih =>
    obtain ⟨given, query, original, intact⟩ := ih
    exact ⟨given, query, original, (solveWithin_intact _ _ _ _ (by simp)).ok intact run⟩
  | @warm _ other _ _ _ state left _ _ _ _ _ run ih source =>
    obtain ⟨given, query, original, intact⟩ := ih
    obtain ⟨given', query', original', intact'⟩ := source
    obtain ⟨map, rfl⟩ := Loaded.eq_of_original original original' (query'.trans query.symm)
    have fits : state.factorization = given.bind (·.factorization) := by
      rw [intact'.root state left]
      cases given <;> rfl
    refine ⟨given, query, original, (solveWithin_intact _ _ _ _ fun earlier same => ?_).ok intact run⟩
    exact Option.some.inj same ▸ fits

end Reused

end DepthFirst

end ReluSolver
