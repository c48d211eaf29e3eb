import ReluSolver.Proofs.RegionRoots
import ReluSolver.Proofs.StoreNarrowing

/-! A decision that reports a solution has found it in its region. Wherever the search is,
its bounds allow no more than those of the root, which allow no more than the split and
the tree state, and a solution is within the bounds of the node that finds it. -/

namespace ReluSolver

open Extended

/-- A solution of a query, up to a tolerance, in the region of a split and of a tree state. -/
structure Query.SolvedWithin (q : Query Extended) (t : Tolerance Extended)
    (split : CaseSplit Extended) (state : Option (TreeState Extended))
    (values : Assignment Extended) : Prop where
  size : values.size = q.size
  satisfied : q.isSatisfiedBy values t = .ok true
  split : ∀ tightening ∈ split.tightenings,
    ∃ a, values[tightening.var]? = some a ∧ Store.Respects t tightening a
  state : ∀ earlier ∈ state, ∀ (v : Nat) i, earlier.bounds.bounds[v]? = some i →
    ∃ a, values[v]? = some a ∧ t.within a i.lower i.upper = true

/-- None of the bounds that a region is given by is undefined. -/
structure DefinedRegion (split : CaseSplit Extended) (state : Option (TreeState Extended)) :
    Prop where
  split : ∀ tightening ∈ split.tightenings, tightening.value ≠ undefined
  state : ∀ earlier ∈ state, ∀ i ∈ earlier.bounds.bounds.toList,
    i.lower ≠ undefined ∧ i.upper ≠ undefined

namespace Store

variable {s warm root : Store Extended} {split : CaseSplit Extended}
  {state : Option (TreeState Extended)} {t : Tolerance Extended}

/-- Whatever some bounds allow, those of the root allow. -/
def ConfinedTo (t : Tolerance Extended) (root : Store Extended)
    (cells : Array (Cell Extended)) : Prop :=
  ∀ (s : Store Extended) v a, s.cells = cells → s.Allows t v a → root.Allows t v a

theorem applySnapshot_eq_ok {snapshot : Snapshot Extended} {outcome : Outcome}
    {last : Store Extended} (run : applySnapshot snapshot s = .ok (.ok outcome) last) :
    snapshot.bounds.size = s.size ∧
      (tightenFrom 0 snapshot.bounds.toList s : EStateM.Result Fault _ _) = .ok outcome last := by
  obtain ⟨_, _, got, run⟩ := run_bind_eq_ok.mp run
  cases got
  split at run
  · cases run
  next sizes =>
    obtain ⟨_, _, entered, run⟩ := run_bind_eq_ok.mp run
    cases run
    exact ⟨by simpa using sizes, entered⟩

section Region

variable {epsilon : ℚ} (same : t.epsilon = finite epsilon) (positive : 0 ≤ epsilon)
include same positive

theorem confinedTo_lasting : Lasting (ConfinedTo t root) := by
  intro s tightening known confined other v a cells allows
  refine confined s v a rfl (allows_of_place same positive known ?_)
  intro c found
  exact allows c (cells ▸ found)

variable {v : Variable} {a : Extended}

theorem NarrowedBy.respects (narrowed : warm.NarrowedBy split root)
    (defined : ∀ tightening ∈ split.tightenings, tightening.value ≠ undefined)
    (allows : root.Allows t v a) :
    ∀ tightening ∈ split.tightenings, tightening.var = v → Respects t tightening a := by
  obtain ⟨outcome, between, feasible, run, later⟩ := narrowed
  exact tightenAll_respects same positive defined run feasible (later.allows same positive allows)

theorem WarmedTo.within {earlier : TreeState Extended} (warmed : s.WarmedTo (some earlier) warm)
    (defined : ∀ i ∈ earlier.bounds.bounds.toList, i.lower ≠ undefined ∧ i.upper ≠ undefined)
    (allows : warm.Allows t v a) {i : Interval Extended}
    (asked : earlier.bounds.bounds[v]? = some i) : t.within a i.lower i.upper = true := by
  obtain ⟨outcome, feasible, run⟩ := warmed
  obtain ⟨known, rfl⟩ := Array.getElem?_eq_some_iff.mp asked
  have entered := tightenFrom_within same positive defined (applySnapshot_eq_ok run).2 feasible
    (i := v) (by simpa using known) (by rwa [Nat.zero_add])
  simpa using entered

theorem RootOf.solvedWithin {q : Query Extended} (made : root.RootOf q t split state)
    (defined : DefinedRegion split state) {values : Assignment Extended}
    (passed : q.isSatisfiedBy values t = .ok true)
    (inside : ∀ (v : Nat) a, values[v]? = some a → root.Allows t v a) :
    q.SolvedWithin t split state values := by
  have inRange := made.known
  obtain ⟨empty, entered, warm, initialized, bounded, warmed, narrowed⟩ := made
  obtain rfl := initialize_eq_ok initialized
  have sameSize : entered.size = q.size := bounded.size_eq.trans (by simp [Store.size])
  have size := (Query.isSatisfiedBy_eq_true.mp passed).1
  have valued {v : Nat} (known : v < q.size) : ∃ a, values[v]? = some a :=
    ⟨_, Array.getElem?_eq_getElem (size ▸ known)⟩
  refine ⟨size, passed, fun tightening member => ?_, fun earlier given v i asked => ?_⟩
  · obtain ⟨a, here⟩ := valued (inRange tightening member)
    have allowed := inside _ a here
    exact ⟨a, here, narrowed.respects same positive defined.split allowed tightening member rfl⟩
  · obtain rfl : state = some earlier := given
    obtain ⟨outcome, -, run⟩ := id warmed
    have known := (Array.getElem?_eq_some_iff.mp asked).1
    rw [(applySnapshot_eq_ok run).1, sameSize] at known
    obtain ⟨a, here⟩ := valued known
    have allowed := narrowed.tightened.allows same positive (inside v a here)
    exact ⟨a, here, warmed.within same positive (defined.state earlier rfl) allowed asked⟩

end Region

end Store

namespace Problem

variable {p : Problem Extended} {s : Session Extended}

theorem Accepts.allows {values : Assignment Extended} (accepts : p.Accepts s values) {v : Nat}
    {a : Extended} (here : values[v]? = some a) : s.store.Allows p.effort.tolerance v a := by
  intro c found
  refine List.all_eq_true.mp accepts.within (a, c) ?_
  rw [List.mem_iff_getElem?]
  exact ⟨v, by simp [List.getElem?_zip_eq_some, here, found]⟩

/-- A search whose bounds allow nothing outside a region. -/
structure SearchesIn (q : Query Extended) (t : Tolerance Extended) (split : CaseSplit Extended)
    (state : Option (TreeState Extended)) (p : Problem Extended) (s : Session Extended) : Prop where
  query : p.query = q
  tolerance : p.effort.tolerance = t
  rational : ∃ epsilon : ℚ, t.epsilon = finite epsilon ∧ 0 ≤ epsilon
  confined : ∃ root : Store Extended, root.RootOf q t split state ∧ s.Everywhere (root.ConfinedTo t)

variable {q : Query Extended} {t : Tolerance Extended} {split : CaseSplit Extended}
  {state : Option (TreeState Extended)}

theorem advance_searchesIn (defined : DefinedRegion split state) (signals : Signals) :
    Ends (p.SearchesIn q t split state) (p.advance signals)
      (fun ending s => p.SearchesIn q t split state s ∧
        ∀ values, ending = some (.satisfied values) → q.SolvedWithin t split state values)
      fun _ _ => True := by
  apply Ends.from_state
  rintro start ⟨rfl, rfl, ⟨epsilon, same, positive⟩, root, made, confined⟩
  refine ((p.advance_everywhere (Store.confinedTo_lasting same positive) signals).here
    confined).weaken (fun _ same => same) ?_ fun _ _ _ => trivial
  rintro ending last ⟨confined, accepted⟩
  refine ⟨⟨rfl, rfl, ⟨epsilon, same, positive⟩, root, made, confined⟩, fun values satisfied => ?_⟩
  have accepts := accepted values satisfied
  refine made.solvedWithin same positive defined accepts.satisfied fun v a here => ?_
  exact confined.now last.store v a rfl (accepts.allows here)

end Problem

namespace DepthFirst

section Decisions

/-- What a decision about a region has come to: it goes on in the region without a solution, or
it has ended, and then satisfied only with a solution in the region. -/
def SearchedIn (q : Option (Query Extended)) (t : Tolerance Extended)
    (split : CaseSplit Extended) (state : Option (TreeState Extended)) (outcome : Option ExitCode)
    (e : DepthFirst Extended) : Prop :=
  match outcome with
  | none => ∃ p s l, e.session = some (p, s) ∧ q = some l ∧ p.SearchesIn l t split state s
  | some code => e.exitCode = code ∧ (code = .sat →
      ∃ values l, e.solution = some values ∧ q = some l ∧ l.SolvedWithin t split state values)

variable {split : CaseSplit Extended} {state : Option (TreeState Extended)}

theorem start_searchedIn (given : DepthFirst Extended) (limit : Duration) :
    Ends (· = given) (DepthFirst.start split limit state)
      (SearchedIn (given.loaded.map (·.query)) ⟨given.config.epsilon⟩ split state)
      fun _ _ => True := by
  refine (start_begins_at given split limit state).mono ?_
  rintro (_ | code) e ⟨-, begun⟩
  · obtain ⟨p, s, shape, begins⟩ := begun
    obtain ⟨tolerance, epsilon, rational, positive⟩ := SearchConfig.effort_valid begins.effort
    have root := begins.root
    rw [tolerance] at root
    refine ⟨p, s, p.query, shape, begins.loaded, rfl, tolerance, ⟨epsilon, rational, positive⟩,
      s.store, root, root.everywhere ?_⟩
    exact fun other v a cells allows => fun c found => allows c (cells ▸ found)
  · exact ⟨begun.1, fun same => absurd same begun.2.1⟩

theorem advance_searchedIn {q : Option (Query Extended)} {t : Tolerance Extended}
    (defined : DefinedRegion split state) (signals : Signals) :
    Ends (SearchedIn q t split state none) (advance signals) (SearchedIn q t split state)
      fun _ _ => True := by
  rintro e ⟨p, s, l, shape, rfl, searches⟩
  have stepped := Problem.advance_searchesIn defined signals s searches
  unfold advance
  rw [shape]
  dsimp only
  cases run : p.advance signals s with
  | ok ending last =>
    rw [run] at stepped
    cases ending with
    | none => exact ⟨p, last, l, rfl, rfl, stepped.1⟩
    | some ending =>
      refine ⟨rfl, fun sat => ?_⟩
      cases ending with
      | satisfied values => exact ⟨values, l, rfl, rfl, stepped.2 values rfl⟩
      | exhausted | undecided | quit => cases sat
  | error cause last =>
    cases cause with
    | failure => exact ⟨rfl, nofun⟩
    | fault => trivial

/-- Loading another query leaves no solution of an earlier one. -/
theorem process_solution (q : Query Extended) (simplified : Bool) (e : DepthFirst Extended) :
    (stateAfter (process q simplified e)).solution = none := by
  have loads (q : Query Extended) (map : VariableMap Extended) :
      Preserves (fun e => e.solution = none) (load q map) := by
    apply Ends.get_bind
    intro e none
    apply (ofFault_ends fun _ _ same => same ▸ none).bind
    intro t
    split
    · apply Ends.through fun _ e => e.solution = .none
      · exact .modifyGet fun _ same => same.1 ▸ none
      · exact fun _ => .pure fun _ kept => kept
    · apply (ofFactor_ends fun _ _ same => same.1 ▸ none).bind
      rintro ⟨f, derived⟩
      apply Ends.through fun _ e => e.solution = .none
      · exact .modifyGet fun _ same => same.1.1 ▸ none
      · exact fun _ => .pure fun _ kept => kept
  have processed : Ends (fun _ => True) (process q simplified) (fun _ e => e.solution = none)
      fun _ e => e.solution = none := by
    refine Ends.through (fun _ e => e.solution = none) (.modifyGet fun _ _ => rfl) fun _ => ?_
    split
    · exact loads _ _
    · apply Ends.get_bind
      intro e none
      apply (ofFault_ends fun _ _ same => same ▸ none).bind
      intro effort
      split
      · exact (loads _ _).strengthen fun _ same => same.1 ▸ none
      · apply Ends.through fun _ e => e.solution = .none
        · exact .modifyGet fun _ same => same.1 ▸ none
        · exact fun _ => .pure fun _ kept => kept
      · exact .throw fun _ same => same.1 ▸ none
      · exact .throw fun _ same => same.1 ▸ none
  have left := processed e trivial
  unfold stateAfter
  cases run : process q simplified e <;> rwa [run] at left

/-- Just where a decision ends satisfied the engine reports a solution, and that is a solution
of the query, up to the tolerance, in the region of this decision. No solution from before it,
and none from before the next query, is ever reported. -/
theorem solve_certified_within {e last : DepthFirst Extended} (defined : DefinedRegion split state)
    {world : Nat → Signals} {limit : Duration} {code : ExitCode}
    (run : e.solve world split limit state = .ok code last) :
    last.exitCode = code ∧ (last.solution?.isSome = true ↔ code = .sat) ∧
      (∀ values, last.solution? = some values → ∃ l, e.loaded = some l ∧
        l.query.SolvedWithin ⟨e.config.epsilon⟩ split state values) ∧
      (∀ previous, solve world split limit state { e with solution := previous } = .ok code last) ∧
      ∀ raw simplified, (stateAfter (process raw simplified last)).solution? = none := by
  obtain ⟨exit, found⟩ := (SearchEngine.solveWithin_ends (start_searchedIn e limit)
    (advance_searchedIn defined) (fun _ _ => trivial) e.nodeBound world).ok rfl run
  have reported : last.solution? = if code = .sat then last.solution else none := by
    rw [solution?, exit]
  refine ⟨exit, ⟨fun some => ?_, fun sat => ?_⟩, fun values same => ?_, fun _ => run,
    fun raw simplified => ?_⟩
  · by_contra other
    rw [reported, if_neg other] at some
    cases some
  · obtain ⟨values, -, kept, -⟩ := found sat
    rw [reported, if_pos sat, kept]
    rfl
  · rw [reported] at same
    split at same
    next sat =>
      obtain ⟨values', q, kept, searched, solved⟩ := found sat
      obtain ⟨l, loaded, rfl⟩ := Option.map_eq_some_iff.mp searched
      obtain rfl := Option.some.inj (kept.symm.trans same)
      exact ⟨l, loaded, solved⟩
    next => cases same
  · unfold solution?
    rw [process_solution]
    split <;> rfl

end Decisions

/-- The solution of a region is reported after that of the whole query, which is outside the
region. -/
theorem solve_certified_within_again :
    let settings : SearchConfig Extended :=
      ⟨finite (1 / 1000), .forrestTomlin, ⟨1, 1⟩, 1, 0, 0, 0, 1⟩
    let raw : Query Extended := { Query.unconstrained 1 with bounds := #v[⟨0, 4⟩] }
    let upperHalf : CaseSplit Extended := ⟨[.lower 0 3]⟩
    let root : TreeState Extended := ⟨⟨#[⟨0, 4⟩]⟩, none⟩
    let calm : Nat → Signals := fun _ => ⟨false, .zero⟩
    let loaded := stateAfter (process raw false (new settings))
    let solved := stateAfter (loaded.solve calm .empty .zero none)
    let last := stateAfter (solved.solve calm upperHalf .zero (some root))
    solved.solution? = some #[2] ∧ DefinedRegion upperHalf (some root) ∧
      solved.solve calm upperHalf .zero (some root) = .ok .sat last ∧
      last.exitCode = .sat ∧ (last.solution?.isSome = true ↔ ExitCode.sat = .sat) ∧
      (∀ values, last.solution? = some values → ∃ l, solved.loaded = some l ∧
        l.query.SolvedWithin ⟨solved.config.epsilon⟩ upperHalf (some root) values) ∧
      (∀ previous, solve calm upperHalf .zero (some root) { solved with solution := previous } =
        .ok .sat last) ∧
      ∀ raw simplified, (stateAfter (process raw simplified last)).solution? = none := by
  intro settings raw upperHalf root calm loaded solved last
  have defined : DefinedRegion upperHalf (some root) := by
    refine ⟨?_, ?_⟩
    · simp [upperHalf, Tightening.lower]
    · simp [root]
  have run : solved.solve calm upperHalf .zero (some root) = .ok .sat last :=
    eq_ok_of_answer (by decide +kernel)
  exact ⟨by decide +kernel, defined, run, solve_certified_within defined run⟩

end DepthFirst

end ReluSolver
