import ReluSolver.Proofs.StoreConsistency

/-! The flags of a store mark the bounds that have changed since the flags were cleared.
What carries this through the checkpoints opened since then is that the cells at each of
them are marked in the same way. What older checkpoints have saved does not matter: they
stay open, so a store without them does the same. -/

namespace ReluSolver

variable {α : Type} [Scalar α]

namespace Cell

variable {base c : Cell α} {side : Side} {value : α}

omit [Scalar α] in
theorem value_put (c : Cell α) (side other : Side) (value : α) (flag : Bool) :
    (c.put side value flag).value other = if other = side then value else c.value other := by
  cases side <;> cases other <;> rfl

omit [Scalar α] in
theorem flag_put (c : Cell α) (side other : Side) (value : α) (flag : Bool) :
    (c.put side value flag).flag other = if other = side then flag else c.flag other := by
  cases side <;> cases other <;> rfl

/-- The flags mark what is strictly tighter than it was, and the rest is as it was. -/
def Marks (base c : Cell α) : Prop :=
  ∀ side, if c.flag side then base.improves side (c.value side) = true
    else c.value side = base.value side

theorem improves_congr (same : c.value side = base.value side) :
    base.improves side value = c.improves side value := by
  cases side with
  | lower => rw [improves, improves, show c.bounds.lower = base.bounds.lower from same]
  | upper => rw [improves, improves, show c.bounds.upper = base.bounds.upper from same]

theorem marks_clearFlags (c : Cell α) : c.Marks c.clearFlags := by
  rintro (_ | _) <;> rfl

variable [LawfulScalar α]

theorem improves_trans (first : base.improves side (c.value side) = true)
    (second : c.improves side value = true) : base.improves side value = true := by
  cases side with
  | lower =>
    exact decide_eq_true (LawfulScalar.lt_trans (of_decide_eq_true first) (of_decide_eq_true second))
  | upper =>
    exact decide_eq_true (LawfulScalar.lt_trans (of_decide_eq_true second) (of_decide_eq_true first))

theorem improves_ne (improves : base.improves side value = true) : value ≠ base.value side := by
  rintro rfl
  cases side <;> exact LawfulScalar.lt_irrefl _ (of_decide_eq_true improves)

namespace Marks

variable (marks : base.Marks c)
include marks

theorem put (improves : c.improves side value = true) : base.Marks (c.put side value true) := by
  intro other
  have before := marks other
  rw [flag_put, value_put]
  by_cases here : other = side
  · subst here
    simp only [if_true]
    split at before
    next => exact improves_trans before improves
    next => rwa [improves_congr before]
  · simpa only [if_neg here] using before

theorem flag_iff (side : Side) : c.flag side = true ↔ c.value side ≠ base.value side := by
  have told := marks side
  split at told
  next set => exact iff_of_true set (improves_ne told)
  next unset => exact iff_of_false unset (not_not_intro told)

omit [LawfulScalar α] in
theorem narrows : c.bounds.Narrows base.bounds := by
  have lower := marks .lower
  have upper := marks .upper
  constructor
  · split at lower
    next => exact .inr (of_decide_eq_true lower)
    next => exact .inl lower
  · split at upper
    next => exact .inr (of_decide_eq_true upper)
    next => exact .inl upper

end Marks

end Cell

namespace Store

variable {s last : Store α} {base cells : Array (Cell α)}

/-- The flags of all cells mark what has changed. -/
def CellsMark (base cells : Array (Cell α)) : Prop :=
  ∀ v, (cellOf base v).Marks (cellOf cells v)

theorem cellsMark_lasting [LawfulScalar α] (base : Array (Cell α)) : Lasting (CellsMark base) := by
  intro s t known marks
  rcases place_cases s t known with ⟨-, placed⟩ | ⟨observer, improves, placed⟩
  · rwa [placed]
  · rw [placed]
    intro v
    dsimp only
    rw [cellOf_set]
    split
    next here =>
      subst here
      have before := marks t.var
      rw [cellOf_known known] at before
      exact before.put improves
    next => exact marks v

theorem Everywhere.register (known : s.EntriesKnown) (marks : s.Everywhere (CellsMark base)) :
    s.register.2.Everywhere (CellsMark base) := by
  have same : ∀ v, cellOf (s.cells.push .unbounded) v = cellOf s.cells v := cellOf_push s.cells
  have wider : ∀ frame ∈ s.trail.frames, ∀ e ∈ frame, e.var < (s.cells.push .unbounded).size := by
    intro frame member e entry
    rw [Array.size_push]
    exact Nat.lt_succ_of_lt (known frame member e entry)
  have alike := steady_id.savedBelow wider known same
  refine List.forall_mem_cons.mpr ⟨fun v => (same v).symm ▸ marks.now v, fun cells member => ?_⟩
  obtain ⟨before, held, same⟩ := forall₂_mem_right alike.flip member
  intro v
  rw [show cellOf cells v = cellOf before v from same v]
  exact marks before (List.mem_cons_of_mem _ held) v

section Inner

/-- The store with no more than its innermost checkpoints. -/
def inner (opened : Nat) (s : Store α) : Store α :=
  { s with trail := ⟨s.trail.frames.take opened⟩ }

omit [Scalar α] in
theorem record_take (trail : Trail α) (e : TrailEntry α) (opened : Nat) :
    (Trail.mk (trail.frames.take opened)).record e = ⟨(trail.record e).frames.take opened⟩ := by
  obtain ⟨frames⟩ := trail
  cases frames with
  | nil => simp [Trail.record]
  | cons frame outer => cases opened <;> rfl

theorem place_inner (opened : Nat) (t : Tightening α) (known : t.var < s.cells.size) :
    ((s.inner opened).place t known).2 = (s.place t known).2.inner opened := by
  cases improves : s.cells[t.var].improves t.side t.value <;>
    cases consistent : (s.cells[t.var].put t.side t.value true).isConsistent s.tolerance <;>
    simp [place, inner, improves, consistent, record_take]

theorem Tightened.inner (tightened : s.Tightened last) (opened : Nat) :
    (s.inner opened).Tightened (last.inner opened) := by
  induction tightened with
  | refl => exact .refl
  | place _ t known ih =>
    rw [← place_inner]
    exact ih.place t known

omit [Scalar α] in
theorem popCheckpoint_inner {opened : Nat} (run : s.popCheckpoint = .ok last) :
    (s.inner (opened + 1)).popCheckpoint = .ok (last.inner opened) := by
  unfold popCheckpoint Trail.pop? at run ⊢
  cases shape : s.trail.frames with
  | nil => simp [shape] at run
  | cons frame outer =>
    simp only [shape, foldl_undo] at run
    obtain rfl := Except.ok.inj run
    simp only [inner, shape, List.take_succ_cons, foldl_undo]

end Inner

/-- Calls that clear no flags and close no more checkpoints than they have opened, of which `opened`
are open at first. -/
inductive Nested : (opened : Nat) → List (Call α) → Prop where
  | nil {opened : Nat} : Nested opened []
  | call {opened : Nat} {c : Call α} {rest : List (Call α)} (notPush : c ≠ .pushCheckpoint)
      (notPop : c ≠ .popCheckpoint) (notClear : c ≠ .clearFlags) (later : Nested opened rest) :
      Nested opened (c :: rest)
  | push {opened : Nat} {rest : List (Call α)} (later : Nested (opened + 1) rest) :
      Nested opened (.pushCheckpoint :: rest)
  | pop {opened : Nat} {rest : List (Call α)} (later : Nested opened rest) :
      Nested (opened + 1) (.popCheckpoint :: rest)

omit [Scalar α] in
theorem Nested.of_prefix {opened : Nat} {earlier calls : List (Call α)} (nested : Nested opened calls)
    (before : earlier <+: calls) : Nested opened earlier := by
  induction nested generalizing earlier with
  | nil => exact List.prefix_nil.mp before ▸ .nil
  | call notPush notPop notClear _ ih =>
    rcases List.prefix_cons_iff.mp before with rfl | ⟨shorter, rfl, shared⟩
    · exact .nil
    · exact .call notPush notPop notClear (ih shared)
  | push _ ih =>
    rcases List.prefix_cons_iff.mp before with rfl | ⟨shorter, rfl, shared⟩
    · exact .nil
    · exact .push (ih shared)
  | pop _ ih =>
    rcases List.prefix_cons_iff.mp before with rfl | ⟨shorter, rfl, shared⟩
    · exact .nil
    · exact .pop (ih shared)

/-- Since the flags were cleared, `opened` checkpoints were opened that are still open, and the flags
mark what has changed, now and at each of them. -/
structure MarkedSince (base : Array (Cell α)) (opened : Nat) (s : Store α) : Prop where
  known : (s.inner opened).EntriesKnown
  marks : (s.inner opened).Everywhere (CellsMark base)

namespace MarkedSince

variable {opened : Nat}

theorem clearFlags (s : Store α) : s.clearFlags.MarkedSince s.cells 0 := by
  refine ⟨nofun, ?_⟩
  intro cells member
  obtain rfl : cells = s.clearFlags.cells := by simpa [inner, saved, savedBelow] using member
  intro v
  rw [Store.clearFlags, cellOf, cellOf, Array.getElem?_map]
  cases s.cells[v]? with
  | none => exact Cell.marks_clearFlags .unbounded
  | some c => exact c.marks_clearFlags

theorem pushCheckpoint (marked : s.MarkedSince base opened) :
    s.pushCheckpoint.MarkedSince base (opened + 1) :=
  ⟨marked.known.pushCheckpoint, marked.marks.pushCheckpoint⟩

theorem popCheckpoint (marked : s.MarkedSince base (opened + 1)) :
    (Call.popCheckpoint.perform s).MarkedSince base opened := by
  unfold Call.perform
  cases run : s.popCheckpoint with
  | ok popped =>
    exact ⟨marked.known.popCheckpoint (popCheckpoint_inner run),
      marked.marks.popCheckpoint (popCheckpoint_inner run)⟩
  | error cause =>
    -- There is no checkpoint at all, and so none to be marked.
    obtain ⟨cells, ⟨frames⟩, observer, tolerance⟩ := s
    cases frames with
    | cons frame outer => cases run
    | nil =>
      obtain ⟨known, marks⟩ := marked
      simp only [inner, List.take_nil] at known marks
      refine ⟨?_, ?_⟩ <;> simpa only [inner, List.take_nil]

variable [LawfulScalar α]

/-- A call that neither opens nor closes a checkpoint marks what it changes. -/
theorem call (marked : s.MarkedSince base opened) {c : Call α} (notPush : c ≠ .pushCheckpoint)
    (notPop : c ≠ .popCheckpoint) (notClear : c ≠ .clearFlags) :
    (c.perform s).MarkedSince base opened := by
  rcases c.perform_tightenings s with performed | ⟨-, rfl | ⟨change, rfl⟩ | rfl | rfl | rfl⟩
  · rw [performed]
    have tightened := (leftBy_tightened (tightenAll_tightened s (c.tightenings s))).inner opened
    exact ⟨marked.known.tightened tightened,
      marked.marks.tightened (cellsMark_lasting base) tightened⟩
  · refine ⟨fun frame member e entry => ?_, marked.marks.register marked.known⟩
    exact (marked.known frame member e entry).trans_le (register_sameBounds (s.inner opened)).grown
  · exact ⟨marked.known, marked.marks⟩
  · exact absurd rfl notClear
  · exact absurd rfl notPush
  · exact absurd rfl notPop

theorem perform (marked : s.MarkedSince base opened) {calls : List (Call α)}
    (nested : Nested opened calls) : ∃ opened', (s.perform calls).MarkedSince base opened' := by
  induction nested generalizing s with
  | nil => exact ⟨_, marked⟩
  | call notPush notPop notClear _ ih => exact ih (marked.call notPush notPop notClear)
  | push _ ih => exact ih marked.pushCheckpoint
  | pop _ ih => exact ih marked.popCheckpoint

end MarkedSince

section Lists

variable {test : Cell α → Bool}

theorem mem_variablesWith {v : Variable} :
    v ∈ s.variablesWith test ↔ v < s.size ∧ test (cellOf s.cells v) = true := by
  rw [variablesWith, List.mem_filter, List.mem_range]
  refine and_congr_right fun known => ?_
  rw [cellOf_known known, Array.getElem?_eq_getElem known]
  rfl

omit [Scalar α] in
theorem variablesWith_ascending (s : Store α) (test : Cell α → Bool) :
    (s.variablesWith test).Pairwise (· < ·) :=
  List.pairwise_lt_range.filter _

end Lists

/-- The bounds of a variable. One that is not registered counts as unbounded. -/
def boundsAt (s : Store α) (v : Variable) : Interval α := (cellOf s.cells v).bounds

/-- Whatever is tightened after the flags are cleared, and whatever of that is undone again, the flags
that are set are those of the bounds that differ from what they were when the flags were cleared. The
variables whose lower bound differs are listed first, in ascending order, and then those of which
only the upper bound does. -/
theorem flags_mark_changes [LawfulScalar α] (s : Store α) {calls earlier : List (Call α)}
    (nested : Nested 0 calls) (before : earlier <+: calls) :
    let now := s.clearFlags.perform earlier
    (∀ v, v < now.size → now.interval v = .ok (now.boundsAt v) ∧
      (now.boundsAt v).Narrows (s.boundsAt v) ∧
      (∃ flag, now.wasLowerTightened v = .ok flag ∧
        (flag = true ↔ (now.boundsAt v).lower ≠ (s.boundsAt v).lower)) ∧
      ∃ flag, now.wasUpperTightened v = .ok flag ∧
        (flag = true ↔ (now.boundsAt v).upper ≠ (s.boundsAt v).upper)) ∧
    ∃ first second, now.tightenedVariables = first ++ second ∧
      first.Pairwise (· < ·) ∧ second.Pairwise (· < ·) ∧
      (∀ v, v ∈ first ↔ v < now.size ∧ (now.boundsAt v).lower ≠ (s.boundsAt v).lower) ∧
      ∀ v, v ∈ second ↔ v < now.size ∧ (now.boundsAt v).lower = (s.boundsAt v).lower ∧
        (now.boundsAt v).upper ≠ (s.boundsAt v).upper := by
  intro now
  obtain ⟨_, marked⟩ := (MarkedSince.clearFlags s).perform (nested.of_prefix before)
  have marks : ∀ v, (cellOf s.cells v).Marks (cellOf now.cells v) := marked.marks.now
  have lower (v : Variable) := (marks v).flag_iff .lower
  have upper (v : Variable) := (marks v).flag_iff .upper
  refine ⟨fun v known => ⟨interval_known known, (marks v).narrows, ⟨_, ask_known known (·.lowerTightened), lower v⟩,
    _, ask_known known (·.upperTightened), upper v⟩, _, _, rfl, now.variablesWith_ascending _,
    now.variablesWith_ascending _, fun v => ?_, fun v => ?_⟩
  · rw [mem_variablesWith]
    exact and_congr_right fun _ => lower v
  · rw [mem_variablesWith, Bool.and_eq_true, Bool.not_eq_true', and_comm (a := _ = true)]
    refine and_congr_right fun _ => and_congr ?_ (upper v)
    exact (Bool.not_eq_true _).symm.to_iff.trans (not_congr (lower v)) |>.trans not_not

/-- A conflict is undone with the checkpoint that it was met under, while an older checkpoint stays
open and the flags from before are gone. -/
theorem flags_mark_changes_unwound :
    let s := (Store.new (⟨1e-9⟩ : Tolerance Float)).perform
      [.register, .register, .register, .pushCheckpoint, .tightenBounds 0 ⟨0, 5⟩]
    let calls : List (Call Float) := [.tighten (.lower 1 4), .pushCheckpoint,
      .tightenAll [.upper 1 7, .lower 2 0, .lower 0 6, .upper 0 1], .popCheckpoint,
      .applySnapshot ⟨#[⟨0, 4⟩, .all, .all]⟩, .pushCheckpoint]
    let now := s.clearFlags.perform calls
    Nested 0 calls ∧ now.tightenedVariables = [1, 0] ∧
      (∃ flag, now.wasUpperTightened 1 = .ok flag ∧
        (flag = true ↔ (now.boundsAt 1).upper ≠ (s.boundsAt 1).upper)) ∧
      ∃ first second, now.tightenedVariables = first ++ second ∧
        first.Pairwise (· < ·) ∧ second.Pairwise (· < ·) ∧
        (∀ v, v ∈ first ↔ v < now.size ∧ (now.boundsAt v).lower ≠ (s.boundsAt v).lower) ∧
        ∀ v, v ∈ second ↔ v < now.size ∧ (now.boundsAt v).lower = (s.boundsAt v).lower ∧
          (now.boundsAt v).upper ≠ (s.boundsAt v).upper := by
  intro s calls now
  have nested : Nested 0 calls :=
    .call nofun nofun nofun (.push (.call nofun nofun nofun (.pop (.call nofun nofun nofun
      (.push .nil)))))
  obtain ⟨each, listed⟩ := flags_mark_changes s nested (List.prefix_refl calls)
  obtain ⟨-, -, -, upper⟩ := each 1 (by decide +kernel)
  exact ⟨nested, by decide +kernel, upper, listed⟩

/-- Together the variables are in no ascending order. -/
theorem tightenedVariables_not_ascending :
    ¬ ∀ (s : Store Float) (calls : List (Call Float)), Nested 0 calls →
      (s.clearFlags.perform calls).tightenedVariables.Pairwise (· < ·) := by
  intro ascending
  let s := (Store.new (⟨1e-9⟩ : Tolerance Float)).perform [.register, .register]
  let calls : List (Call Float) := [.tighten (.upper 0 1), .tighten (.lower 1 0)]
  have listed : (s.clearFlags.perform calls).tightenedVariables = [1, 0] := by decide +kernel
  have nested : Nested 0 calls := .call nofun nofun nofun (.call nofun nofun nofun .nil)
  have ordered := listed ▸ ascending s calls nested
  revert ordered
  decide

end Store

end ReluSolver
