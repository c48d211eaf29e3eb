import ReluSolver.Proofs.EngineSoundness
import ReluSolver.Proofs.LastingBounds

/-! Where a decision about a region begins. The bounds of the root are those of the
query, made stricter by a tree state, by the split, and by propagation. A decision that
does not get there has found no solution and visited no node. -/

namespace ReluSolver

variable {α : Type} [Scalar α]

namespace Store

/-- A store was tightened to the bounds of a tree state, if there is one. -/
def WarmedTo (state : Option (TreeState α)) (s warm : Store α) : Prop :=
  match state with
  | none => warm = s
  | some earlier => ∃ outcome : Outcome, outcome ≠ .infeasible ∧
      applySnapshot earlier.bounds s = .ok (.ok outcome) warm

/-- A store was tightened by a split, and then further. -/
def NarrowedBy (split : CaseSplit α) (s root : Store α) : Prop :=
  ∃ (outcome : Outcome) (narrowed : Store α), outcome ≠ .infeasible ∧
    (tightenAll split.tightenings s : EStateM.Result Fault _ _) = .ok outcome narrowed ∧
    narrowed.Tightened root

/-- How the bounds of the root of a region come about. -/
def RootOf (q : Query α) (t : Tolerance α) (split : CaseSplit α) (state : Option (TreeState α))
    (root : Store α) : Prop :=
  ∃ empty entered warm, (Store.new t).initialize? q.size = .ok empty ∧ empty.Tightened entered ∧
    entered.WarmedTo state warm ∧ warm.NarrowedBy split root

variable {s warm root : Store α} {state : Option (TreeState α)} {split : CaseSplit α}

theorem WarmedTo.tightened (warmed : s.WarmedTo state warm) : s.Tightened warm := by
  cases state with
  | none =>
    obtain rfl : warm = s := warmed
    exact .refl
  | some earlier =>
    obtain ⟨outcome, -, run⟩ := warmed
    exact (applySnapshot_tightened s earlier.bounds).ok .refl run

theorem Tightened.trans {between last : Store α} (first : s.Tightened between)
    (second : between.Tightened last) : s.Tightened last := by
  induction second with
  | refl => exact first
  | place _ t known ih => exact ih.place t known

theorem NarrowedBy.tightened (narrowed : s.NarrowedBy split root) : s.Tightened root := by
  obtain ⟨outcome, between, -, run, later⟩ := narrowed
  exact ((tightenAll_tightened s split.tightenings).ok .refl run).trans later

theorem RootOf.tightened {q : Query α} {t : Tolerance α} (made : root.RootOf q t split state) :
    Tightened { Store.new t with cells := Array.replicate q.size Cell.unbounded } root := by
  obtain ⟨empty, entered, warm, initialized, bounded, warmed, narrowed⟩ := made
  obtain rfl := initialize_eq_ok initialized
  exact (bounded.trans warmed.tightened).trans narrowed.tightened

theorem tightenAll_known {last : Store α} {ts : List (Tightening α)} {outcome : Outcome}
    (run : (tightenAll ts s : EStateM.Result Fault _ _) = .ok outcome last)
    (feasible : outcome ≠ .infeasible) : ∀ t ∈ ts, t.var < s.size := by
  induction ts generalizing s outcome with
  | nil => exact List.forall_mem_nil _
  | cons first rest ih =>
    obtain ⟨early, between, tightened, run⟩ := run_bind_eq_ok.mp run
    have known : first.var < s.size := by
      by_contra unknown
      obtain ⟨cause, failed⟩ := tighten_unknown (s := s) (t := first) unknown
      cases failed.symm.trans tightened
    have same := ((tighten_tightened s first).ok .refl tightened).size_eq
    split at run
    · cases run
      exact absurd rfl feasible
    · obtain ⟨late, last', others, run⟩ := run_bind_eq_ok.mp run
      cases run
      have lateFeasible : late ≠ .infeasible := by
        rintro rfl
        cases early <;> exact feasible rfl
      exact List.forall_mem_cons.mpr ⟨known, same ▸ ih others lateFeasible⟩

theorem RootOf.known {q : Query α} {t : Tolerance α} (made : root.RootOf q t split state) :
    ∀ tightening ∈ split.tightenings, tightening.var < q.size := by
  obtain ⟨empty, entered, warm, initialized, bounded, warmed, narrowed⟩ := made
  obtain ⟨outcome, between, feasible, run, -⟩ := narrowed
  obtain rfl := initialize_eq_ok initialized
  have size : warm.size = q.size :=
    (bounded.trans warmed.tightened).size_eq.trans (by simp [Store.size])
  exact size ▸ tightenAll_known run feasible

/-- The root of a region is the one store that its search works with, as no checkpoint is open
there. -/
theorem RootOf.everywhere {q : Query α} {t : Tolerance α} (made : root.RootOf q t split state)
    {property : Array (Cell α) → Prop} (holds : property root.cells) : root.Everywhere property :=
  List.forall_mem_cons.mpr ⟨holds, by rw [made.tightened.saved_eq]; exact nofun⟩

end Store

namespace DepthFirst

/-- An engine that has found no solution and visited no node. -/
structure Blank (e : DepthFirst α) : Prop where
  solution : e.solution = none
  nodes : e.statistics.nodes = 0
  maxDepth : e.statistics.maxDepth = 0

/-- A search that is about to visit the root of a region of the query that an engine has loaded. -/
structure BeginsAt (given : DepthFirst α) (split : CaseSplit α) (state : Option (TreeState α))
    (p : Problem α) (s : Session α) : Prop where
  loaded : given.loaded.map (·.query) = some p.query
  effort : given.config.effort = .ok p.effort
  root : s.store.RootOf p.query p.effort.tolerance split state
  stack : s.stack = []
  nodes : s.statistics.nodes = 0
  maxDepth : s.statistics.maxDepth = 0

omit [Scalar α] in
theorem takeFactorization_blank (earlier : TreeState α) :
    Preserves Blank (takeFactorization earlier) := by
  refine .modifyGet fun e blank => ?_
  dsimp only
  repeat' split
  all_goals exact ⟨blank.solution, blank.nodes, blank.maxDepth⟩

theorem warmStart_warms (s : Store α) (state : Option (TreeState α)) :
    Ends Blank (warmStart s state) (fun warm e => e.Blank ∧ ∀ t ∈ warm, s.WarmedTo state t)
      fun _ => Blank := by
  unfold warmStart
  cases state with
  | none => exact .pure fun _ blank => ⟨blank, fun t same => (Option.some.inj same).symm⟩
  | some earlier =>
    apply (onStore_ends fun _ _ blank => blank).bind
    rintro ⟨result, warm⟩
    cases result with
    | error cause => exact .throw fun _ kept => kept.1
    | ok outcome =>
      apply Ends.from_state
      rintro e ⟨blank, applied⟩
      dsimp only
      split
      · exact .pure fun _ same => ⟨same ▸ blank, nofun⟩
      next feasible =>
        refine ((takeFactorization_blank earlier).here blank).bind fun _ => .pure fun _ kept => ?_
        refine ⟨kept, fun t same => ?_⟩
        obtain rfl := Option.some.inj same
        exact ⟨outcome, fun none => feasible (none ▸ rfl), applied⟩

theorem propagateRoot_narrows (effort : Effort α) (split : CaseSplit α) (s : Store α) (q : Query α)
    (derived : List (Equation α)) :
    Ends Blank (propagateRoot effort split s q derived)
      (fun root e => e.Blank ∧ ∀ t ∈ root, s.NarrowedBy split t) fun _ => Blank := by
  apply (onStore_ends fun _ _ blank => blank).bind
  rintro ⟨outcome, narrowed⟩
  apply Ends.from_state
  rintro e ⟨blank, tightened⟩
  dsimp only
  split
  · exact .pure fun _ same => ⟨same ▸ blank, nofun⟩
  next feasible =>
    have later := effort.propagate_tightened narrowed q.equations derived q.relus narrowed .refl
    unfold Effort.propagateQuery
    cases run : effort.propagate q.equations derived q.relus narrowed with
    | ok news last =>
      rw [run] at later
      refine Ends.through (fun _ => Blank) (.modifyGet ?_) fun _ => .pure fun _ kept => ?_
      · rintro _ rfl
        exact ⟨blank.solution, blank.nodes, blank.maxDepth⟩
      · refine ⟨kept, fun t same => ?_⟩
        obtain rfl := Option.some.inj same
        exact ⟨outcome, narrowed, fun none => feasible (none ▸ rfl), tightened, later⟩
    | error cause last =>
      cases cause with
      | conflict => exact .pure fun _ same => ⟨same ▸ blank, nofun⟩
      | factorization | fault => exact .throw fun _ same => same ▸ blank

theorem prepare_begins_at (split : CaseSplit α) {given : DepthFirst α} (blank : given.Blank)
    (limit : Duration) (state : Option (TreeState α)) :
    Ends (· = given) (prepare split limit state)
      (fun outcome e => e.Blank ∧ outcome ≠ some .sat ∧
        (outcome = none → ∃ p s, e.session = some (p, s) ∧ given.BeginsAt split state p s))
      fun _ => Blank := by
  apply Ends.get_bind
  intro e same
  obtain rfl : given = e := same.symm
  apply (ofFault_ends fun _ _ same => same ▸ blank).bind
  intro effort
  apply Ends.get_bind
  rintro e ⟨same, made⟩
  obtain rfl : given = e := same.symm
  split
  next l shape =>
    apply (ofFault_ends fun _ _ same => same ▸ blank).bind
    intro empty
    apply (onStore_ends fun _ _ same => same.1 ▸ blank).bind
    rintro ⟨_, entered⟩
    apply Ends.from_state
    rintro e ⟨⟨same, initialized⟩, bounded⟩
    obtain rfl : given = e := same.symm
    have tightened := (enterBounds_tightened empty 0 l.query.bounds.toList).ok .refl bounded
    apply ((warmStart_warms entered state).here blank).bind
    intro warm
    apply Ends.from_state
    rintro between ⟨blank, warmed⟩
    cases warm with
    | none => exact .pure fun _ same => ⟨same ▸ blank, by simp⟩
    | some warm =>
      apply ((propagateRoot_narrows effort split warm l.query l.derived).here blank).bind
      intro root
      apply Ends.from_state
      rintro last ⟨blank, narrowed⟩
      cases root with
      | none => exact .pure fun _ same => ⟨same ▸ blank, by simp⟩
      | some root =>
        apply Ends.through fun _ e => e.Blank ∧
          ∃ p s, e.session = some (p, s) ∧ given.BeginsAt split state p s
        · refine .modifyGet ?_
          rintro _ rfl
          refine ⟨⟨blank.solution, blank.nodes, blank.maxDepth⟩, _, _, rfl, ?_⟩
          exact ⟨by rw [shape]; rfl, made,
            ⟨empty, entered, warm, initialized, tightened, warmed _ rfl, narrowed _ rfl⟩, rfl,
            blank.nodes, blank.maxDepth⟩
        · exact fun _ => .pure fun _ kept => ⟨kept.1, nofun, fun _ => kept.2⟩
  next => exact .throw fun _ same => same ▸ blank

/-- A decision begins at the root of the region, or it ends without a solution. -/
theorem start_begins_at (given : DepthFirst α) (split : CaseSplit α) (limit : Duration)
    (state : Option (TreeState α)) :
    Ends (· = given) (DepthFirst.start split limit state)
      (fun outcome e => e.Blank ∧ match outcome with
        | none => ∃ p s, e.session = some (p, s) ∧ given.BeginsAt split state p s
        | some code => e.exitCode = code ∧ code ≠ .sat ∧ e.session = none)
      fun _ _ => True := by
  intro e same
  obtain rfl : given = e := same.symm
  have blank : Blank
      { given with solution := none, rootState := none, statistics := .zero, session := none } :=
    ⟨rfl, rfl, rfl⟩
  have prepared := prepare_begins_at split blank limit state _ rfl
  unfold DepthFirst.start
  dsimp only
  cases run : prepare split limit state
    { given with solution := none, rootState := none, statistics := .zero, session := none } with
  | ok outcome last =>
    rw [run] at prepared
    obtain ⟨blank, refused, begins⟩ := prepared
    cases outcome with
    | none =>
      obtain ⟨p, s, shape, begun⟩ := begins rfl
      exact ⟨blank, p, s, shape, begun.loaded, begun.effort, begun.root, begun.stack, begun.nodes,
        begun.maxDepth⟩
    | some code =>
      exact ⟨⟨blank.solution, blank.nodes, blank.maxDepth⟩, rfl, fun same => refused (same ▸ rfl),
        rfl⟩
  | error cause last =>
    rw [run] at prepared
    cases cause with
    | failure => exact ⟨⟨prepared.solution, prepared.nodes, prepared.maxDepth⟩, rfl, nofun, rfl⟩
    | fault => trivial

end DepthFirst

end ReluSolver
