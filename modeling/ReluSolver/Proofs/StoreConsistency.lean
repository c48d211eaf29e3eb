import ReluSolver.Proofs.LastingBounds
import ReluSolver.Proofs.TighteningRuns

/-! A store in which every conflict is undone at once holds consistent bounds. What
carries the invariant through the checkpoints is that it holds of the bounds at all of
them: an infeasible call spoils only the current ones, and closing a checkpoint goes
back to those of its opening. Registering variables and clearing flags change no bounds
at any checkpoint, as an unregistered variable counts as unbounded. -/

namespace ReluSolver

variable {α : Type} [Scalar α]

/-- The ends are numbers, and they do not cross beyond a tolerance. -/
structure Interval.Sound (t : Tolerance α) (i : Interval α) : Prop extends i.Numeric where
  consistent : t.ge i.upper i.lower = true

namespace Store

variable {t : Tolerance α} {s last : Store α}

section Reports

/-- What a call reports, if it is a tightening and comes to its end. -/
def Call.report (s : Store α) : Call α → Option Outcome
  | .tighten t => (Store.tighten t).run' s
  | .tightenBounds x bounds => (Store.tightenBounds x bounds).run' s
  | .tightenAll ts => (Store.tightenAll ts).run' s
  | .applySnapshot snapshot => ((Store.applySnapshot snapshot).run' s).bind Except.toOption
  | .register | .observe _ | .clearFlags | .pushCheckpoint | .popCheckpoint => none

/-- The bounds are the same, also those at the open checkpoints. Further variables are unbounded. -/
structure SameBounds (s last : Store α) : Prop where
  trail : last.trail = s.trail
  tolerance : last.tolerance = s.tolerance
  grown : s.cells.size ≤ last.cells.size
  alike : ∀ v, (cellOf last.cells v).bounds = (cellOf s.cells v).bounds

theorem SameBounds.refl (s : Store α) : s.SameBounds s := ⟨rfl, rfl, le_rfl, fun _ => rfl⟩

theorem register_sameBounds (s : Store α) : s.SameBounds s.register.2 :=
  ⟨rfl, rfl, by simp [register], fun v => by rw [register, cellOf_push]⟩

theorem clearFlags_sameBounds (s : Store α) : s.SameBounds s.clearFlags := by
  refine ⟨rfl, rfl, by simp [clearFlags], fun v => ?_⟩
  rw [clearFlags, cellOf, cellOf, Array.getElem?_map]
  cases s.cells[v]? <;> rfl

theorem initialize_sameBounds {count : Nat} (run : s.initialize? count = .ok last) :
    s.SameBounds last := by
  unfold initialize? at run
  split at run
  next empty =>
    obtain rfl := Except.ok.inj run
    have none : s.cells = #[] := by simpa using empty
    refine ⟨rfl, rfl, by simp [none], fun v => ?_⟩
    simp only [cellOf, none, Array.getElem?_replicate]
    split <;> rfl
  next => cases run

/-- Every call but the two about checkpoints is a run of tightenings or leaves the bounds as they
are. -/
theorem Call.perform_cases (s : Store α) (c : Call α) :
    (∃ ts, c.perform s = s.leftBy (Store.tightenAll ts) ∧
      c.report s = (Store.tightenAll ts).run' s) ∨
    (c.report s = none ∧
      (s.SameBounds (c.perform s) ∨ c = .pushCheckpoint ∨ c = .popCheckpoint)) := by
  cases c with
  | tighten t =>
    refine .inl ⟨[t], ?_, ?_⟩ <;> rw [tightenAll_singleton] <;> rfl
  | tightenBounds x bounds => exact .inl ⟨_, rfl, rfl⟩
  | tightenAll ts => exact .inl ⟨ts, rfl, rfl⟩
  | applySnapshot snapshot =>
    have same := applySnapshot_eq snapshot s
    split at same
    next =>
      refine .inl ⟨snapshot.tightenings, ?_⟩
      change Store.applySnapshot snapshot s = EStateM.map Except.ok _ s at same
      rw [EStateM.map] at same
      simp only [perform, report, leftBy, EStateM.run', EStateM.run, same]
      cases Store.tightenAll snapshot.tightenings s <;> exact ⟨rfl, rfl⟩
    next =>
      simp only [perform, report, leftBy, EStateM.run', EStateM.run, same]
      exact .inr ⟨rfl, .inl (.refl s)⟩
  | register => exact .inr ⟨rfl, .inl s.register_sameBounds⟩
  | observe change => exact .inr ⟨rfl, .inl ⟨rfl, rfl, le_rfl, fun _ => rfl⟩⟩
  | clearFlags => exact .inr ⟨rfl, .inl s.clearFlags_sameBounds⟩
  | pushCheckpoint => exact .inr ⟨rfl, .inr (.inl rfl)⟩
  | popCheckpoint => exact .inr ⟨rfl, .inr (.inr rfl)⟩

/-- The tightenings that a call stands for. -/
def Call.tightenings (s : Store α) : Call α → List (Tightening α)
  | .tighten t => [t]
  | .tightenBounds x bounds => [.lower x bounds.lower, .upper x bounds.upper]
  | .tightenAll ts => ts
  | .applySnapshot snapshot => if snapshot.bounds.size = s.size then snapshot.tightenings else []
  | .register | .observe _ | .clearFlags | .pushCheckpoint | .popCheckpoint => []

theorem Call.perform_tightenings (s : Store α) (c : Call α) :
    c.perform s = s.leftBy (Store.tightenAll (c.tightenings s)) ∨
    (c.tightenings s = [] ∧ (c = .register ∨ (∃ change, c = .observe change) ∨ c = .clearFlags ∨
      c = .pushCheckpoint ∨ c = .popCheckpoint)) := by
  cases c with
  | tighten t => exact .inl (by rw [tightenings, tightenAll_singleton]; rfl)
  | tightenBounds x bounds => exact .inl rfl
  | tightenAll ts => exact .inl rfl
  | applySnapshot snapshot =>
    have same := applySnapshot_eq snapshot s
    refine .inl ?_
    rw [tightenings]
    split at same
    next sized =>
      change Store.applySnapshot snapshot s = EStateM.map Except.ok _ s at same
      rw [EStateM.map] at same
      rw [if_pos sized]
      simp only [perform, leftBy, same]
      cases Store.tightenAll snapshot.tightenings s <;> rfl
    next other =>
      rw [if_neg other]
      simp only [perform, leftBy, same]
      rfl
  | register => exact .inr ⟨rfl, .inl rfl⟩
  | observe change => exact .inr ⟨rfl, .inr (.inl ⟨change, rfl⟩)⟩
  | clearFlags => exact .inr ⟨rfl, .inr (.inr (.inl rfl))⟩
  | pushCheckpoint => exact .inr ⟨rfl, .inr (.inr (.inr (.inl rfl)))⟩
  | popCheckpoint => exact .inr ⟨rfl, .inr (.inr (.inr (.inr rfl)))⟩

end Reports

section Checkpoints

omit [Scalar α] in
theorem length_savedBelow (frames : List (List (TrailEntry α))) (cells : Array (Cell α)) :
    (savedBelow frames cells).length = frames.length := by
  induction frames generalizing cells with
  | nil => rfl
  | cons frame outer ih => simp [savedBelow, ih]

/-- The entries of all open checkpoints are about registered variables. -/
def EntriesKnown (s : Store α) : Prop :=
  ∀ frame ∈ s.trail.frames, ∀ e ∈ frame, e.var < s.cells.size

theorem Steady.savedBelow {γ : Type} {view : Cell α → γ} (steady : Steady view)
    {frames : List (List (TrailEntry α))} {cells others : Array (Cell α)}
    (known : ∀ frame ∈ frames, ∀ e ∈ frame, e.var < cells.size)
    (knownOthers : ∀ frame ∈ frames, ∀ e ∈ frame, e.var < others.size)
    (alike : ∀ v, view (cellOf cells v) = view (cellOf others v)) :
    List.Forall₂ (fun saved saved' => ∀ v, view (cellOf saved v) = view (cellOf saved' v))
      (Store.savedBelow frames cells) (Store.savedBelow frames others) := by
  induction frames generalizing cells others with
  | nil => exact .nil
  | cons frame outer ih =>
    have below := steady.undo (known frame (by simp)) (knownOthers frame (by simp)) alike
    refine .cons below (ih ?_ ?_ below)
    · intro frame' member e inside
      rw [size_foldl_undoCell]
      exact known frame' (by simp [member]) e inside
    · intro frame' member e inside
      rw [size_foldl_undoCell]
      exact knownOthers frame' (by simp [member]) e inside

theorem EntriesKnown.place (known : s.EntriesKnown) (t : Tightening α)
    (inside : t.var < s.cells.size) : (s.place t inside).2.EntriesKnown := by
  rcases place_cases s t inside with ⟨-, placed⟩ | ⟨observer, -, placed⟩
  · rwa [placed]
  · rw [placed]
    intro frame member e entry
    simp only [Array.size_set]
    cases shape : s.trail.frames with
    | nil =>
      simp only [Trail.record, shape, List.not_mem_nil] at member
    | cons first outer =>
      simp only [Trail.record, shape, List.mem_cons] at member
      rcases member with rfl | member
      · rcases List.mem_cons.mp entry with rfl | entry
        · exact inside
        · exact known first (by simp [shape]) e entry
      · exact known frame (by simp [shape, member]) e entry

theorem EntriesKnown.tightened (known : s.EntriesKnown) (tightened : s.Tightened last) :
    last.EntriesKnown := by
  induction tightened with
  | refl => exact known
  | place _ t inside ih => exact ih.place t inside

omit [Scalar α] in
theorem EntriesKnown.popCheckpoint (known : s.EntriesKnown) (run : s.popCheckpoint = .ok last) :
    last.EntriesKnown := by
  unfold Store.popCheckpoint Trail.pop? at run
  cases shape : s.trail.frames with
  | nil => simp [shape] at run
  | cons first outer =>
    simp only [shape, foldl_undo] at run
    obtain rfl := Except.ok.inj run
    intro frame member e entry
    simp only [size_foldl_undoCell]
    exact known frame (by simp [shape, member]) e entry

omit [Scalar α] in
theorem EntriesKnown.pushCheckpoint (known : s.EntriesKnown) : s.pushCheckpoint.EntriesKnown :=
  List.forall_mem_cons.mpr ⟨nofun, known⟩

theorem Tightened.popCheckpoint (tightened : s.Tightened last) (deep : 0 < s.depth) :
    ∃ popped, last.popCheckpoint = .ok popped := by
  have open' : 0 < last.saved.length := by
    rwa [tightened.saved_eq, saved, length_savedBelow]
  obtain ⟨cells, rest, held⟩ := List.exists_cons_of_length_pos open'
  obtain ⟨popped, run, -⟩ := popCheckpoint_of_saved held
  exact ⟨popped, run⟩

end Checkpoints

def CellsSound (t : Tolerance α) (cells : Array (Cell α)) : Prop :=
  ∀ v, (cellOf cells v).bounds.Sound t

/-- The bounds are sound now and at all open checkpoints. -/
structure Kept (t : Tolerance α) (s : Store α) : Prop where
  tolerance : s.tolerance = t
  known : s.EntriesKnown
  sound : s.Everywhere (CellsSound t)

namespace Kept

variable (kept : s.Kept t)
include kept

theorem sameBounds (same : s.SameBounds last) : last.Kept t := by
  have known : ∀ frame ∈ s.trail.frames, ∀ e ∈ frame, e.var < last.cells.size :=
    fun frame member e entry => (kept.known frame member e entry).trans_le same.grown
  have alike := steady_bounds.savedBelow known kept.known same.alike
  refine ⟨same.tolerance.trans kept.tolerance, by rwa [EntriesKnown, same.trail], ?_⟩
  refine List.forall_mem_cons.mpr ⟨fun v => same.alike v ▸ kept.sound.now v, ?_⟩
  intro cells member
  rw [saved, same.trail] at member
  obtain ⟨before, held, same⟩ := forall₂_mem_right alike.flip member
  exact fun v => same v ▸ kept.sound before (List.mem_cons_of_mem _ held) v

theorem tightened (tightened : s.Tightened last) (now : CellsSound t last.cells) : last.Kept t :=
  ⟨tightened.tolerance_eq.trans kept.tolerance, kept.known.tightened tightened,
    List.forall_mem_cons.mpr ⟨now, tightened.saved_eq ▸ (List.forall_mem_cons.mp kept.sound).2⟩⟩

/-- Closing a checkpoint undoes whatever tightenings have been made, even infeasible ones. -/
theorem undone (tightened : s.Tightened last) {popped : Store α}
    (run : last.popCheckpoint = .ok popped) : popped.Kept t := by
  obtain ⟨saved, tolerance, -⟩ := saved_of_popCheckpoint run
  refine ⟨?_, (kept.known.tightened tightened).popCheckpoint run, ?_⟩
  · rw [tolerance, tightened.tolerance_eq, kept.tolerance]
  · have below := (List.forall_mem_cons.mp kept.sound).2
    rwa [← tightened.saved_eq, saved] at below

end Kept

section Runs

variable [LawfulScalar α]

theorem place_sound (sound : CellsSound s.tolerance s.cells) (tightening : Tightening α)
    (known : tightening.var < s.cells.size)
    (feasible : (s.place tightening known).1 ≠ .infeasible) :
    CellsSound s.tolerance (s.place tightening known).2.cells := by
  intro v
  refine ⟨(place_narrows s tightening known v).numeric (sound v).toNumeric, ?_⟩
  rcases place_cases s tightening known with ⟨-, placed⟩ | ⟨observer, -, placed⟩
  · rw [placed]
    exact (sound v).consistent
  · rw [placed] at feasible ⊢
    dsimp only at feasible ⊢
    rw [cellOf_set]
    split
    next => exact of_not_not fun crossing => feasible (if_neg crossing)
    next => exact (sound v).consistent

theorem tightenAll_sound (t : Tolerance α) (ts : List (Tightening α)) :
    Ends (fun s => s.tolerance = t ∧ CellsSound t s.cells) (tightenAll ts)
      (fun outcome last => outcome ≠ .infeasible → last.tolerance = t ∧ CellsSound t last.cells)
      fun _ last => last.tolerance = t ∧ CellsSound t last.cells := by
  induction ts with
  | nil => exact .pure fun _ sound _ => sound
  | cons tightening rest ih =>
    apply Ends.through fun outcome last =>
      outcome ≠ .infeasible → last.tolerance = t ∧ CellsSound t last.cells
    · rintro s ⟨rfl, sound⟩
      by_cases known : tightening.var < s.cells.size
      · rw [tighten_known known]
        have kept := (Tightened.refl : s.Tightened s).place tightening known
        exact fun feasible =>
          ⟨kept.tolerance_eq, place_sound sound tightening known feasible⟩
      · obtain ⟨cause, run⟩ := tighten_unknown known
        rw [run]
        exact ⟨rfl, sound⟩
    intro early
    split
    next => exact .pure fun _ _ never => absurd rfl never
    next feasible =>
      refine (ih.strengthen fun _ kept => kept fun same => feasible (same ▸ rfl)).bind fun late =>
        .pure fun _ kept merged => kept fun same => merged ?_
      exact Outcome.merge_eq_infeasible.mpr (.inr same)

end Runs

/-- The stores that a new one can become. A call that reports a conflict is made under a checkpoint,
which is closed right after it. -/
inductive Reached (t : Tolerance α) : Store α → Prop where
  | new : Reached t (Store.new t)
  | filled {s last : Store α} (before : Reached t s) {count : Nat}
      (run : s.initialize? count = .ok last) : Reached t last
  | call {s : Store α} (before : Reached t s) {c : Call α}
      (feasible : c.report s ≠ some .infeasible) : Reached t (c.perform s)
  | undone {s : Store α} (before : Reached t s) {c : Call α}
      (infeasible : c.report s = some .infeasible) (deep : 0 < s.depth) :
      Reached t (Call.popCheckpoint.perform (c.perform s))

section Reached

variable [LawfulScalar α] {epsilon : α} (valid : Tolerance.ofEpsilon epsilon = .ok t)
include valid

theorem all_sound : (Interval.all : Interval α).Sound t :=
  ⟨Interval.all_numeric, LawfulScalar.all_consistent valid⟩

theorem Reached.kept (reached : Reached t s) : s.Kept t := by
  induction reached with
  | new =>
    refine ⟨rfl, nofun, ?_⟩
    intro cells member
    obtain rfl : cells = #[] := by simpa [Store.new, saved, Trail.empty, savedBelow] using member
    exact fun v => all_sound valid
  | filled _ run ih => exact ih.sameBounds (initialize_sameBounds run)
  | @call s _ c feasible ih =>
    rcases c.perform_cases s with ⟨ts, performed, told⟩ | ⟨-, same | rfl | rfl⟩
    · have ended := tightenAll_sound t ts s ⟨ih.tolerance, ih.sound.now⟩
      rw [performed]
      refine ih.tightened (leftBy_tightened (tightenAll_tightened s ts)) ?_
      rw [told, EStateM.run', EStateM.run] at feasible
      unfold leftBy
      cases run : tightenAll ts s with
      | ok outcome last =>
        rw [run] at ended feasible
        exact (ended fun same => feasible (congrArg some same)).2
      | error cause last =>
        rw [run] at ended
        exact ended.2
    · exact ih.sameBounds same
    · exact ⟨ih.tolerance, ih.known.pushCheckpoint, ih.sound.pushCheckpoint⟩
    · unfold Call.perform
      cases run : s.popCheckpoint with
      | error => exact ih
      | ok popped => exact ih.undone .refl run
  | @undone s _ c infeasible deep ih =>
    rcases c.perform_cases s with ⟨ts, performed, -⟩ | ⟨told, -⟩
    · have tightened : s.Tightened (c.perform s) :=
        performed ▸ leftBy_tightened (tightenAll_tightened s ts)
      obtain ⟨popped, run⟩ := tightened.popCheckpoint deep
      rw [Call.perform, run]
      exact ih.undone tightened run
    · rw [told] at infeasible
      cases infeasible

omit valid in
/-- No call widens the bounds of a variable but the one that closes a checkpoint. -/
theorem Call.perform_narrows {c : Call α} (notPop : c ≠ .popCheckpoint) :
    s.size ≤ (c.perform s).size ∧
      ∀ v, (cellOf (c.perform s).cells v).bounds.Narrows (cellOf s.cells v).bounds := by
  rcases c.perform_cases s with ⟨ts, performed, -⟩ | ⟨-, same | rfl | rfl⟩
  · have tightened := leftBy_tightened (tightenAll_tightened s ts)
    rw [performed]
    exact ⟨tightened.size_eq.ge, tightened.narrows⟩
  · exact ⟨same.grown, fun v => same.alike v ▸ .refl _⟩
  · exact ⟨le_rfl, fun v => .refl _⟩
  · exact absurd rfl notPop

omit valid [LawfulScalar α] in
theorem Call.perform_rejected {c : Call α} (rejected : c.report s = some .rejected) :
    c.perform s = s := by
  rcases c.perform_cases s with ⟨ts, performed, told⟩ | ⟨told, -⟩
  · obtain ⟨last, run⟩ := result_eq_some.mp (told.symm.trans rejected)
    rw [performed, leftBy, run]
    exact tightenAll_rejected run
  · rw [told] at rejected
    cases rejected

/-- However a store came about, as long as conflicts are undone: all variables are consistent, no
call makes a bound undefined, none but closing a checkpoint widens the bounds of a variable, and a
rejected one changes nothing. -/
theorem reached_consistent_monotone (reached : Reached t s) :
    (∀ v, v < s.size → s.isConsistent v = .ok true) ∧
      (∀ v bounds, s.interval v = .ok bounds → bounds.Numeric) ∧
      ∀ c : Call α,
        (∀ v bounds, (c.perform s).interval v = .ok bounds → bounds.Numeric) ∧
        (c ≠ .popCheckpoint → ∀ v before, s.interval v = .ok before →
          ∃ after, (c.perform s).interval v = .ok after ∧ after.Narrows before) ∧
        (c.report s = some .rejected → c.perform s = s) := by
  have kept := reached.kept valid
  refine ⟨fun v known => ?_, fun v bounds held => ?_, fun c => ⟨fun v bounds held => ?_, ?_, ?_⟩⟩
  · rw [isConsistent, ask_known known, Cell.isConsistent, kept.tolerance]
    exact congrArg _ (kept.sound.now v).consistent
  · obtain ⟨-, rfl⟩ := interval_iff_cellOf.mp held
    exact (kept.sound.now v).toNumeric
  · obtain ⟨-, rfl⟩ := interval_iff_cellOf.mp held
    by_cases pop : c = .popCheckpoint
    · subst pop
      have popped : Reached t (Call.popCheckpoint.perform s) := reached.call nofun
      exact ((popped.kept valid).sound.now v).toNumeric
    · exact ((Call.perform_narrows pop).2 v).numeric (kept.sound.now v).toNumeric
  · intro notPop v before held
    obtain ⟨known, rfl⟩ := interval_iff_cellOf.mp held
    obtain ⟨grown, narrows⟩ := Call.perform_narrows notPop
    exact ⟨_, interval_known (known.trans_le grown), narrows v⟩
  · exact Call.perform_rejected

end Reached

/-- Doubles: undefined and infinite values, a batch that stops at a conflict half-way under the
second checkpoint, and flags that are cleared after it is undone. -/
theorem reached_consistent_monotone_undone :
    let t : Tolerance Float := ⟨1e-9⟩
    let s := (Store.new t).perform [.register, .register, .pushCheckpoint,
      .tightenBounds 0 ⟨Scalar.undefined, 5⟩, .tighten (.upper 1 Scalar.infinity), .pushCheckpoint,
      .tightenAll [.lower 1 2, .lower 0 9, .upper 1 0], .popCheckpoint, .clearFlags]
    Tolerance.ofEpsilon (1e-9 : Float) = .ok t ∧ Reached t s ∧
      (Call.tightenAll [.lower 0 Scalar.undefined, .upper 0 5]).report s = some .rejected ∧
      (∀ v, v < s.size → s.isConsistent v = .ok true) ∧
      (∀ v bounds, s.interval v = .ok bounds → bounds.Numeric) ∧
      ∀ c : Call Float,
        (∀ v bounds, (c.perform s).interval v = .ok bounds → bounds.Numeric) ∧
        (c ≠ .popCheckpoint → ∀ v before, s.interval v = .ok before →
          ∃ after, (c.perform s).interval v = .ok after ∧ after.Narrows before) ∧
        (c.report s = some .rejected → c.perform s = s) := by
  intro t s
  have valid : Tolerance.ofEpsilon (1e-9 : Float) = .ok t := if_pos (by decide +kernel)
  have registered : Reached t ((Store.new t).perform [.register, .register, .pushCheckpoint]) :=
    ((Reached.new.call (c := .register) nofun).call (c := .register) nofun).call
      (c := .pushCheckpoint) nofun
  have bounded := (registered.call (c := .tightenBounds 0 ⟨Scalar.undefined, 5⟩)
    (by decide +kernel)).call (c := .tighten (.upper 1 Scalar.infinity)) (by decide +kernel)
  have reached : Reached t s :=
    ((bounded.call (c := .pushCheckpoint) nofun).undone
      (c := .tightenAll [.lower 1 2, .lower 0 9, .upper 1 0]) (by decide +kernel)
      (by decide +kernel)).call (c := .clearFlags) nofun
  exact ⟨valid, reached, by decide +kernel, reached_consistent_monotone valid reached⟩

end Store

end ReluSolver
