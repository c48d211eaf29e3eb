import ReluSolver.Proofs.ChangeFlags

/-! What an observer of a store is told is enough to follow it. It hears of the tightenings
that are accepted, each once and in order, whichever calls they are part of. As long as
nothing is undone, a copy that takes the same tightenings accepts all of them: the ones
left out were rejected and changed nothing, so a verdict depends on no others. -/

namespace ReluSolver.Store

variable {α : Type} [Scalar α] {s mid last copy : Store α} {t : Tightening α}
  {ts us : List (Tightening α)} {outcome : Outcome}

section Histories

/-- The single tightenings that are made of those in a list, up to the first infeasible one, with
what becomes of each. -/
def attempts : List (Tightening α) → Store α → List (Tightening α × Outcome)
  | [], _ => []
  | t :: rest, s =>
    match tighten t s with
    | .ok outcome mid =>
      (t, outcome) :: if outcome.isInfeasible then [] else attempts rest mid
    | .error _ _ => []

/-- The single tightenings that are made in the course of some calls. -/
def history (s : Store α) : List (Call α) → List (Tightening α × Outcome)
  | [] => []
  | c :: rest => attempts (c.tightenings s) s ++ (c.perform s).history rest

omit [Scalar α] in
def accepted (history : List (Tightening α × Outcome)) : List (Tightening α) :=
  (history.filter (·.2.isAccepted)).map (·.1)

omit [Scalar α] in
@[simp] theorem accepted_append (earlier later : List (Tightening α × Outcome)) :
    accepted (earlier ++ later) = accepted earlier ++ accepted later := by
  simp [accepted]

theorem history_append (s : Store α) (earlier later : List (Call α)) :
    s.history (earlier ++ later) = s.history earlier ++ (s.perform earlier).history later := by
  induction earlier generalizing s with
  | nil => rfl
  | cons c rest ih =>
    rw [List.cons_append, history, history, ih, List.append_assoc]
    rfl

theorem attempts_cases (t : Tightening α) (rest : List (Tightening α)) (s : Store α) :
    (attempts (t :: rest) s = [] ∧ s.leftBy (tightenAll (t :: rest)) = s) ∨
    (∃ mid, tighten t s = .ok .infeasible mid ∧ attempts (t :: rest) s = [(t, .infeasible)] ∧
      s.leftBy (tightenAll (t :: rest)) = mid) ∨
    ∃ outcome mid, outcome ≠ .infeasible ∧ tighten t s = .ok outcome mid ∧
      attempts (t :: rest) s = (t, outcome) :: attempts rest mid ∧
      s.leftBy (tightenAll (t :: rest)) = mid.leftBy (tightenAll rest) := by
  have both : tightenAll (t :: rest) s = _ := andThen_apply (tighten t) (tightenAll rest) s
  by_cases known : t.var < s.cells.size
  · have run := tighten_known known
    rw [run] at both
    cases outcome : (s.place t known).1 with
    | infeasible =>
      refine .inr (.inl ⟨_, outcome ▸ run, ?_, ?_⟩)
      · rw [attempts, run, outcome]
        rfl
      · rw [leftBy, both, outcome]
    | accepted | rejected =>
      refine .inr (.inr ⟨(s.place t known).1, _, ?_, run, ?_, ?_⟩)
      · rw [outcome]
        exact fun same => by cases same
      · rw [attempts, run, outcome]
        rfl
      · rw [outcome] at both
        dsimp only at both
        rw [leftBy, leftBy, both]
        cases tightenAll rest (s.place t known).2 <;> rfl
  · obtain ⟨cause, run⟩ := tighten_unknown known
    rw [run] at both
    exact .inl ⟨by rw [attempts, run], by rw [leftBy, both]⟩

end Histories

section Observers

theorem tighten_observer (run : tighten t s = .ok outcome last) :
    last.observer = if outcome.isAccepted then s.observer.notify t else s.observer := by
  obtain ⟨known, placed⟩ := tighten_eq_ok run
  unfold place at placed
  dsimp only at placed
  split at placed
  · split at placed
    all_goals
      obtain ⟨rfl, rfl⟩ := Prod.mk.inj placed
      rfl
  · obtain ⟨rfl, rfl⟩ := Prod.mk.inj placed
    rfl

/-- A run of tightenings tells of those that are accepted. -/
theorem leftBy_observer (ts : List (Tightening α)) (s : Store α) :
    (s.leftBy (tightenAll ts)).observer =
      (accepted (attempts ts s)).foldl Observer.notify s.observer := by
  induction ts generalizing s with
  | nil => rfl
  | cons t rest ih =>
    rcases attempts_cases t rest s with ⟨none, left⟩ | ⟨mid, run, one, left⟩ |
      ⟨outcome, mid, -, run, more, left⟩
    · rw [none, left]
      rfl
    · rw [one, left, tighten_observer run]
      rfl
    · rw [more, left, ih, tighten_observer run]
      cases outcome <;> rfl

theorem Call.perform_observer (s : Store α) {c : Call α} (kept : ∀ change, c ≠ .observe change) :
    (c.perform s).observer =
      (accepted (attempts (c.tightenings s) s)).foldl Observer.notify s.observer := by
  rcases c.perform_tightenings s with performed | ⟨-, rfl | ⟨change, rfl⟩ | rfl | rfl | rfl⟩
  · rw [performed, leftBy_observer]
  · rfl
  · exact absurd rfl (kept change)
  · rfl
  · rfl
  · unfold Call.perform
    cases run : s.popCheckpoint with
    | ok popped => exact (saved_of_popCheckpoint run).2.2
    | error => rfl

theorem perform_observer (s : Store α) {calls : List (Call α)}
    (kept : ∀ change, .observe change ∉ calls) :
    (s.perform calls).observer = (accepted (s.history calls)).foldl Observer.notify s.observer := by
  induction calls generalizing s with
  | nil => rfl
  | cons c rest ih =>
    change ((c.perform s).perform rest).observer = _
    rw [ih _ fun change member => kept change (by simp [member]),
      Call.perform_observer s fun change same => kept change (by simp [same]), history,
      accepted_append, List.foldl_append]

omit [Scalar α] in
theorem heard_notify (told ts : List (Tightening α)) :
    (ts.foldl Observer.notify (.listening told)).heard = told.reverse ++ ts := by
  induction ts generalizing told with
  | nil => simp [Observer.heard]
  | cons t rest ih =>
    rw [List.foldl_cons, Observer.notify, ih]
    simp

end Observers

section Replays

theorem Call.perform_size (s : Store α) (c : Call α) : s.size ≤ (c.perform s).size := by
  rcases c.perform_tightenings s with performed | ⟨-, rfl | ⟨change, rfl⟩ | rfl | rfl | rfl⟩
  · rw [performed]
    exact (leftBy_tightened (tightenAll_tightened s _)).size_eq.ge
  · exact s.register_sameBounds.grown
  · exact le_rfl
  · exact s.clearFlags_sameBounds.grown
  · exact le_rfl
  · unfold Call.perform
    cases run : s.popCheckpoint with
    | error => exact le_rfl
    | ok popped =>
      unfold Store.popCheckpoint at run
      split at run
      · cases run
      · obtain rfl := Except.ok.inj run
        simp [foldl_undo, size]

theorem perform_size (s : Store α) (calls : List (Call α)) : s.size ≤ (s.perform calls).size := by
  induction calls generalizing s with
  | nil => exact le_rfl
  | cons c rest ih => exact (c.perform_size s).trans (ih _)

/-- The bounds are those of another store. -/
structure Follows (s copy : Store α) : Prop where
  tolerance : copy.tolerance = s.tolerance
  alike : ∀ v, (cellOf copy.cells v).bounds = (cellOf s.cells v).bounds

theorem Follows.interval (follows : s.Follows copy) (sized : copy.size = s.size) (v : Variable) :
    copy.interval v = s.interval v := by
  by_cases known : v < s.size
  · rw [interval_known known, interval_known (sized ▸ known), follows.alike]
  · have unknown : s.cells[v]? = none := Array.getElem?_eq_none (not_lt.mp known)
    have unknown' : copy.cells[v]? = none := Array.getElem?_eq_none (sized.trans_le (not_lt.mp known))
    simp only [Store.interval, lower, upper, cell, unknown, unknown', sized]

theorem Follows.tighten (follows : s.Follows copy) (sized : s.size ≤ copy.size)
    (run : Store.tighten t s = .ok .accepted mid) :
    ∃ mid', Store.tighten t copy = .ok .accepted mid' ∧ mid.Follows mid' ∧
      mid'.size = copy.size := by
  obtain ⟨known, placed⟩ := tighten_eq_ok run
  have known' : t.var < copy.cells.size := known.trans_le sized
  have same : copy.cells[t.var].bounds = s.cells[t.var].bounds := by
    rw [← cellOf_known known, ← cellOf_known known', follows.alike]
  have put := steady_bounds copy.cells[t.var] s.cells[t.var] t.side t.value true same
  rcases place_cases s t known with ⟨-, shape⟩ | ⟨observer, improves, shape⟩
  · cases (Prod.mk.inj (placed.symm.trans shape)).1
  obtain ⟨told, rfl⟩ := Prod.mk.inj (placed.symm.trans shape)
  have alike : copy.cells[t.var].value t.side = s.cells[t.var].value t.side := by
    cases t.side
    · exact congrArg Interval.lower same
    · exact congrArg Interval.upper same
  rcases place_cases copy t known' with ⟨rests, -⟩ | ⟨observer', -, shape'⟩
  · rw [← Cell.improves_congr alike, improves] at rests
    cases rests
  refine ⟨(copy.place t known').2, ?_, ?_, ?_⟩
  · rw [tighten_known known', shape']
    dsimp only
    rw [Cell.isConsistent, put, follows.tolerance, ← Cell.isConsistent, ← told]
  · rw [shape']
    refine ⟨follows.tolerance, fun v => ?_⟩
    dsimp only
    rw [cellOf_set, cellOf_set]
    split
    · exact put
    · exact follows.alike v
  · rw [shape']
    simp [size]

/-- A copy that takes some tightenings accepts them all, and has the bounds of a store then. -/
structure Replays (copy : Store α) (ts : List (Tightening α)) (last : Store α) : Prop where
  accepts : copy.history (ts.map .tighten) = ts.map (·, .accepted)
  follows : last.Follows (copy.perform (ts.map .tighten))
  size_eq : (copy.perform (ts.map .tighten)).size = copy.size

theorem Follows.replays_nil (follows : s.Follows copy) : copy.Replays [] s := ⟨rfl, follows, rfl⟩

theorem Replays.append (first : copy.Replays ts mid)
    (second : (copy.perform (ts.map .tighten)).Replays us last) : copy.Replays (ts ++ us) last := by
  have both : copy.perform ((ts ++ us).map .tighten) =
      (copy.perform (ts.map .tighten)).perform (us.map .tighten) := by
    rw [List.map_append, perform, List.foldl_append]
    rfl
  refine ⟨?_, both ▸ second.follows, ?_⟩
  · rw [List.map_append, history_append, first.accepts, second.accepts, List.map_append]
  · rw [both, second.size_eq, first.size_eq]

theorem Replays.single (follows : s.Follows copy) (sized : s.size ≤ copy.size)
    (run : Store.tighten t s = .ok .accepted mid) : copy.Replays [t] mid := by
  obtain ⟨mid', run', follows, size⟩ := follows.tighten sized run
  have left : copy.perform ([t].map .tighten) = mid' := by
    change copy.leftBy (Store.tighten t) = mid'
    rw [leftBy, run']
  refine ⟨?_, left ▸ follows, left ▸ size⟩
  simp only [List.map_cons, List.map_nil, history, Call.tightenings, attempts, run',
    List.append_nil]
  rfl

/-- Rejected tightenings need not be replayed. -/
theorem Follows.replays_tightenAll (follows : s.Follows copy) (sized : s.size ≤ copy.size)
    (feasible : ∀ a ∈ attempts ts s, a.2 ≠ .infeasible) :
    copy.Replays (accepted (attempts ts s)) (s.leftBy (tightenAll ts)) := by
  induction ts generalizing s copy with
  | nil => exact follows.replays_nil
  | cons t rest ih =>
    rcases attempts_cases t rest s with ⟨none, left⟩ | ⟨mid, run, one, left⟩ |
      ⟨outcome, mid, notInfeasible, run, more, left⟩
    · rw [none, left]
      exact follows.replays_nil
    · rw [one] at feasible
      exact absurd rfl (feasible (t, .infeasible) (by simp))
    · rw [more] at feasible
      have size := ((tighten_tightened s t).ok .refl run).size_eq
      have later := fun a member => feasible a (List.mem_cons_of_mem _ member)
      rw [more, left]
      cases outcome with
      | infeasible => exact absurd rfl notInfeasible
      | rejected =>
        rw [← tightenAll_singleton] at run
        obtain rfl := tightenAll_rejected run
        exact ih follows sized later
      | accepted =>
        have single := Replays.single follows sized run
        exact single.append (ih single.follows (by rw [single.size_eq, size]; exact sized) later)

theorem Follows.sameBounds (follows : s.Follows copy) (same : s.SameBounds last) :
    last.Follows copy :=
  ⟨follows.tolerance.trans same.tolerance.symm, fun v => (follows.alike v).trans (same.alike v).symm⟩

theorem Follows.replays_call (follows : s.Follows copy) {c : Call α} (lasting : c ≠ .popCheckpoint)
    (sized : s.size ≤ copy.size) (feasible : ∀ a ∈ attempts (c.tightenings s) s, a.2 ≠ .infeasible) :
    copy.Replays (accepted (attempts (c.tightenings s) s)) (c.perform s) := by
  rcases c.perform_tightenings s with performed | ⟨none, quiet⟩
  · rw [performed]
    exact follows.replays_tightenAll sized feasible
  · rw [none]
    apply Follows.replays_nil
    rcases quiet with rfl | ⟨change, rfl⟩ | rfl | rfl | rfl
    · exact follows.sameBounds s.register_sameBounds
    · exact ⟨follows.tolerance, follows.alike⟩
    · exact follows.sameBounds s.clearFlags_sameBounds
    · exact ⟨follows.tolerance, follows.alike⟩
    · exact absurd rfl lasting

theorem Follows.replays (follows : s.Follows copy) {calls : List (Call α)}
    (lasting : .popCheckpoint ∉ calls) (feasible : ∀ a ∈ s.history calls, a.2 ≠ .infeasible)
    (sized : (s.perform calls).size ≤ copy.size) :
    copy.Replays (accepted (s.history calls)) (s.perform calls) := by
  induction calls generalizing s copy with
  | nil => exact follows.replays_nil
  | cons c rest ih =>
    have grown : s.size ≤ copy.size := (s.perform_size (c :: rest)).trans sized
    rw [history] at feasible ⊢
    rw [accepted_append]
    have first := follows.replays_call (fun same => lasting (by simp [same])) grown
      fun a member => feasible a (List.mem_append_left _ member)
    exact first.append (ih first.follows (fun member => lasting (by simp [member]))
      (fun a member => feasible a (List.mem_append_right _ member)) (first.size_eq.symm ▸ sized))

theorem follows_registered (s : Store α) (count : Nat) :
    s.Follows (s.perform (List.replicate count .register)) ∧
      (s.perform (List.replicate count .register)).size = s.size + count := by
  induction count with
  | zero => exact ⟨⟨rfl, fun _ => rfl⟩, rfl⟩
  | succ count ih =>
    obtain ⟨follows, size⟩ := ih
    rw [List.replicate_succ', perform, List.foldl_append, ← perform]
    refine ⟨⟨follows.tolerance, fun v => ?_⟩, ?_⟩
    · rw [← follows.alike v]
      exact congrArg Cell.bounds (cellOf_push _ v)
    · rw [← Nat.add_assoc, ← size]
      exact Array.size_push _

end Replays

/-- A listener hears of the accepted tightenings, each once and in order, and of nothing else. As long
as no checkpoint is closed and no conflict met, they are all accepted again by a copy of the store in
which the same variables are registered, and they leave it with the same bounds. -/
theorem observer_hears_accepted {told : List (Tightening α)} (listens : s.observer = .listening told)
    {calls : List (Call α)} (kept : ∀ change, .observe change ∉ calls) :
    let last := s.perform calls
    let notified := accepted (s.history calls)
    last.observer.heard = s.observer.heard ++ notified ∧
      (.popCheckpoint ∉ calls → (∀ a ∈ s.history calls, a.2 ≠ .infeasible) →
        let copy := s.perform (List.replicate (last.size - s.size) .register)
        let replay := notified.map Call.tighten
        copy.history replay = notified.map (·, .accepted) ∧
          ∀ v, (copy.perform replay).interval v = last.interval v) := by
  intro last notified
  refine ⟨?_, fun lasting feasible => ?_⟩
  · rw [perform_observer s kept, listens, heard_notify]
    rfl
  · intro copy replay
    obtain ⟨follows, size⟩ := s.follows_registered (last.size - s.size)
    have sized : copy.size = last.size := size.trans (Nat.add_sub_cancel' (s.perform_size calls))
    have replays := follows.replays lasting feasible sized.ge
    exact ⟨replays.accepts, replays.follows.interval (replays.size_eq.trans sized)⟩

/-- A new variable, a batch that is rejected in part, one that fails at an unknown variable, and a
snapshot that is tighter on one side only. -/
theorem observer_hears_accepted_mixed :
    let s := (Store.new (⟨1e-9⟩ : Tolerance Float)).perform
      [.register, .tightenBounds 0 ⟨0, 5⟩, .observe fun _ => .listening []]
    let calls : List (Call Float) := [.tighten (.lower 0 (-1)), .register, .pushCheckpoint,
      .tightenAll [.upper 1 4, .upper 1 4, .lower 0 Scalar.undefined, .lower 0 1], .clearFlags,
      .tightenAll [.lower 1 0, .upper 2 7, .lower 1 1],
      .applySnapshot ⟨#[⟨0, 3⟩, ⟨-2, Scalar.infinity⟩]⟩]
    let last := s.perform calls
    let notified := accepted (s.history calls)
    s.observer = .listening [] ∧ (∀ change, .observe change ∉ calls) ∧
      last.observer.heard = s.observer.heard ++ notified ∧
      notified.map (fun t => (t.side, t.var)) =
        [(.upper, 1), (.lower, 0), (.lower, 1), (.upper, 0)] ∧
      let copy := s.perform (List.replicate (last.size - s.size) .register)
      let replay := notified.map Call.tighten
      copy.history replay = notified.map (·, .accepted) ∧
        ∀ v, (copy.perform replay).interval v = last.interval v := by
  intro s calls last notified
  have kept : ∀ change, .observe change ∉ calls := by
    intro change member
    simp [calls] at member
  have lasting : .popCheckpoint ∉ calls := by simp [calls]
  have feasible : ∀ a ∈ s.history calls, a.2 ≠ .infeasible := by
    have all : (s.history calls).all (·.2 ≠ .infeasible) = true := by decide +kernel
    simpa using all
  have listens : s.observer = .listening [] := rfl
  obtain ⟨heard, replayed⟩ := observer_hears_accepted listens kept
  exact ⟨listens, kept, heard, by decide +kernel, replayed lasting feasible⟩

end ReluSolver.Store
