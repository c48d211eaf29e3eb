import ReluSolver.Proofs.StoreTightening

/-! Closing a checkpoint brings back the store that it was opened on, whatever the calls
in between did. The invariant is about the innermost frame only: undoing it gives the
cells of the opening. Variables that were registered meanwhile count as unbounded
before, so registering one does not change what there is to bring back. -/

namespace ReluSolver.Store

open Extended

section Calls

variable {α : Type}

/-- A call that changes the bounds, the flags, the observer or the checkpoints of a store. -/
inductive Call (α : Type) where
  | tighten (t : Tightening α)
  | tightenBounds (x : Variable) (bounds : Interval α)
  | tightenAll (ts : List (Tightening α))
  | applySnapshot (snapshot : Snapshot α)
  | register
  | observe (change : Observer α → Observer α)
  | clearFlags
  | pushCheckpoint
  | popCheckpoint

/-- The store that an action leaves. A failed one keeps what it did until it failed. -/
def leftBy {ε β : Type} (action : Action ε α β) (s : Store α) : Store α :=
  match action s with
  | .ok _ last => last
  | .error _ last => last

/-- The store after a call, whatever its outcome. -/
def Call.perform [Scalar α] (s : Store α) : Call α → Store α
  | .tighten t => s.leftBy (Store.tighten t)
  | .tightenBounds x bounds => s.leftBy (Store.tightenBounds x bounds)
  | .tightenAll ts => s.leftBy (Store.tightenAll ts)
  | .applySnapshot snapshot => s.leftBy (Store.applySnapshot snapshot)
  | .register => s.register.2
  | .observe change => { s with observer := change s.observer }
  | .clearFlags => s.clearFlags
  | .pushCheckpoint => s.pushCheckpoint
  | .popCheckpoint =>
    match s.popCheckpoint with
    | .ok popped => popped
    | .error _ => s

def perform [Scalar α] (s : Store α) (calls : List (Call α)) : Store α := calls.foldl Call.perform s

/-- The calls open and close checkpoints in pairs, which may be nested. -/
inductive Balanced : List (Call α) → Prop where
  | nil : Balanced []
  | call {c : Call α} {rest : List (Call α)} (notPush : c ≠ .pushCheckpoint)
      (notPop : c ≠ .popCheckpoint) (later : Balanced rest) : Balanced (c :: rest)
  | checkpoint {inner rest : List (Call α)} (within : Balanced inner) (later : Balanced rest) :
      Balanced (.pushCheckpoint :: (inner ++ .popCheckpoint :: rest))

end Calls

section Views

variable {α γ : Type}

@[simp] theorem size_foldl_undoCell (entries : List (TrailEntry α)) (cells : Array (Cell α)) :
    (entries.foldl undoCell cells).size = cells.size := by
  induction entries generalizing cells with
  | nil => rfl
  | cons e rest ih =>
    rw [List.foldl_cons, ih]
    exact Array.size_modify

/-- Putting a bound back looks the same on cells that look the same. -/
def Steady (view : Cell α → γ) : Prop :=
  ∀ (c c' : Cell α) side value flag, view c = view c' →
    view (c.put side value flag) = view (c'.put side value flag)

theorem steady_id : Steady (id : Cell α → Cell α) := by
  intro c c' side value flag same
  rw [show c = c' from same]

theorem steady_bounds : Steady (Cell.bounds : Cell α → Interval α) := by
  intro c c' side value flag same
  cases side <;> simp only [Cell.put, same]

end Views

section Rewinding

variable {α γ : Type} [Scalar α] {view : Cell α → γ}

/-- The cell of a variable. One that is not registered counts as unbounded. -/
def cellOf (cells : Array (Cell α)) (v : Variable) : Cell α := cells[v]?.getD .unbounded

theorem cellOf_push (cells : Array (Cell α)) (v : Variable) :
    cellOf (cells.push .unbounded) v = cellOf cells v := by
  unfold cellOf
  rw [Array.getElem?_push]
  split
  next last => simp [last]
  next => rfl

theorem cellOf_undoCell {cells : Array (Cell α)} {e : TrailEntry α} (known : e.var < cells.size)
    (v : Variable) :
    cellOf (undoCell cells e) v =
      if e.var = v then (cellOf cells v).put e.side e.oldValue e.oldFlag else cellOf cells v := by
  unfold cellOf undoCell
  rw [Array.getElem?_modify]
  split
  next same =>
    subst same
    simp [known]
  next => rfl

theorem Steady.undo (steady : Steady view) {entries : List (TrailEntry α)}
    {cells others : Array (Cell α)} (known : ∀ e ∈ entries, e.var < cells.size)
    (knownOthers : ∀ e ∈ entries, e.var < others.size)
    (alike : ∀ v, view (cellOf cells v) = view (cellOf others v)) (v : Variable) :
    view (cellOf (entries.foldl undoCell cells) v) =
      view (cellOf (entries.foldl undoCell others) v) := by
  induction entries generalizing cells others with
  | nil => exact alike v
  | cons e rest ih =>
    have here := known e (by simp)
    have hereOthers := knownOthers e (by simp)
    refine ih (fun e' member => ?_) (fun e' member => ?_) fun u => ?_
    · simpa [undoCell] using known e' (by simp [member])
    · simpa [undoCell] using knownOthers e' (by simp [member])
    · rw [cellOf_undoCell here, cellOf_undoCell hereOthers]
      split
      · exact steady _ _ _ _ _ (alike u)
      · exact alike u

/-- The innermost frame was opened on `base`, and undoing it gives cells that look like its. -/
structure Rewinds (view : Cell α → γ) (base : Store α) (frame : List (TrailEntry α))
    (s : Store α) : Prop where
  frames : s.trail.frames = frame :: base.trail.frames
  known : ∀ e ∈ frame, e.var < s.cells.size
  grown : base.cells.size ≤ s.cells.size
  alike : ∀ v, view (cellOf (frame.foldl undoCell s.cells) v) = view (cellOf base.cells v)

variable {base s : Store α} {frame : List (TrailEntry α)}

theorem pushCheckpoint_rewinds (s : Store α) : Rewinds view s [] s.pushCheckpoint :=
  ⟨rfl, nofun, Nat.le_refl _, fun _ => rfl⟩

theorem Rewinds.popCheckpoint (rewinds : Rewinds view base frame s) :
    ∃ popped, s.popCheckpoint = .ok popped ∧ popped.trail = base.trail ∧
      base.cells.size ≤ popped.cells.size ∧
      ∀ v, view (cellOf popped.cells v) = view (cellOf base.cells v) := by
  refine ⟨frame.foldl undo { s with trail := base.trail }, ?_, ?_, ?_, ?_⟩
  · rw [Store.popCheckpoint, Trail.pop?, rewinds.frames]
  · rw [foldl_undo]
  · rw [foldl_undo]
    simpa using rewinds.grown
  · rw [foldl_undo]
    exact rewinds.alike

theorem Rewinds.place (rewinds : Rewinds view base frame s) (t : Tightening α)
    (known : t.var < s.cells.size) : ∃ later, Rewinds view base later (s.place t known).2 := by
  rcases place_cases s t known with ⟨-, same⟩ | ⟨observer, -, same⟩
  · rw [same]
    exact ⟨frame, rewinds⟩
  · rw [same]
    refine ⟨⟨t.var, t.side, s.cells[t.var].value t.side, s.cells[t.var].flag t.side⟩ :: frame,
      ?_, ?_, ?_, fun v => ?_⟩
    · simp only [Trail.record, rewinds.frames]
    · intro e member
      rcases List.mem_cons.mp member with rfl | old
      · simpa using known
      · simpa using rewinds.known e old
    · simpa using rewinds.grown
    · dsimp only
      rw [List.foldl_cons, undoCell_set known]
      exact rewinds.alike v

theorem Rewinds.tightened (rewinds : Rewinds view base frame s) {last : Store α}
    (tightened : Tightened s last) : ∃ later, Rewinds view base later last := by
  induction tightened with
  | refl => exact ⟨frame, rewinds⟩
  | place _ t known ih =>
    obtain ⟨later, rewinds⟩ := ih
    exact rewinds.place t known

theorem leftBy_tightened {β : Type} {action : Action Fault α β}
    (preserves : Preserves (Tightened s) action) : Tightened s (s.leftBy action) := by
  have kept := preserves s .refl
  unfold leftBy
  cases run : action s with
  | ok _ last => rwa [run] at kept
  | error _ last => rwa [run] at kept

theorem Rewinds.call (steady : Steady view) (rewinds : Rewinds view base frame s) {c : Call α}
    (notPush : c ≠ .pushCheckpoint) (notPop : c ≠ .popCheckpoint)
    (blind : c = .clearFlags → ∀ c : Cell α, view c.clearFlags = view c) :
    ∃ later, Rewinds view base later (c.perform s) := by
  cases c with
  | tighten t => exact rewinds.tightened (leftBy_tightened (tighten_tightened s t))
  | tightenBounds x bounds => exact rewinds.tightened (leftBy_tightened (tightenAll_tightened s _))
  | tightenAll ts => exact rewinds.tightened (leftBy_tightened (tightenAll_tightened s ts))
  | applySnapshot snapshot =>
    exact rewinds.tightened (leftBy_tightened (applySnapshot_tightened s snapshot))
  | register =>
    have wider : ∀ e ∈ frame, e.var < (s.cells.push .unbounded).size := by
      intro e member
      rw [Array.size_push]
      exact Nat.lt_succ_of_lt (rewinds.known e member)
    refine ⟨frame, rewinds.frames, wider, ?_, fun v => ?_⟩
    · exact rewinds.grown.trans (by simp [Call.perform, Store.register])
    · rw [← rewinds.alike v]
      exact steady.undo wider rewinds.known (fun u => by rw [cellOf_push]) v
  | observe change => exact ⟨frame, rewinds.frames, rewinds.known, rewinds.grown, rewinds.alike⟩
  | clearFlags =>
    have same : (s.cells.map Cell.clearFlags).size = s.cells.size := Array.size_map
    have still : ∀ e ∈ frame, e.var < (s.cells.map Cell.clearFlags).size := by
      intro e member
      rw [same]
      exact rewinds.known e member
    refine ⟨frame, rewinds.frames, still, same ▸ rewinds.grown, fun v => ?_⟩
    rw [← rewinds.alike v]
    refine steady.undo still rewinds.known (fun u => ?_) v
    unfold cellOf
    rw [Array.getElem?_map]
    cases s.cells[u]? with
    | none => rfl
    | some cell => exact blind rfl cell
  | pushCheckpoint => exact absurd rfl notPush
  | popCheckpoint => exact absurd rfl notPop

theorem Rewinds.closed (steady : Steady view) (rewinds : Rewinds view base frame s)
    {inner : List (TrailEntry α)} {last : Store α} (within : Rewinds view s inner last) :
    Rewinds view base frame (Call.popCheckpoint.perform last) := by
  obtain ⟨popped, run, trail, grown, alike⟩ := within.popCheckpoint
  simp only [Call.perform, run]
  have known : ∀ e ∈ frame, e.var < popped.cells.size := fun e member =>
    Nat.lt_of_lt_of_le (rewinds.known e member) grown
  refine ⟨trail ▸ rewinds.frames, known, rewinds.grown.trans grown, fun v => ?_⟩
  rw [← rewinds.alike v]
  exact steady.undo known rewinds.known alike v

/-- Balanced calls within a frame leave as much to bring back. -/
theorem Rewinds.perform (steady : Steady view) {calls : List (Call α)} (balanced : Balanced calls)
    (blind : .clearFlags ∈ calls → ∀ c : Cell α, view c.clearFlags = view c)
    (rewinds : Rewinds view base frame s) : ∃ later, Rewinds view base later (s.perform calls) := by
  induction balanced generalizing base frame s with
  | nil => exact ⟨frame, rewinds⟩
  | @call c rest notPush notPop _ ih =>
    obtain ⟨later, rewinds⟩ := rewinds.call steady notPush notPop
      fun same => blind (by simp [same])
    exact ih (fun member => blind (by simp [member])) rewinds
  | @checkpoint inner rest _ _ ihInner ihRest =>
    obtain ⟨opened, within⟩ := ihInner (fun member => blind (by simp [member]))
      (pushCheckpoint_rewinds s)
    have closed := rewinds.closed steady within
    obtain ⟨later, rewinds⟩ := ihRest (fun member => blind (by simp [member])) closed
    refine ⟨later, ?_⟩
    rw [Store.perform, List.foldl_cons, List.foldl_append, List.foldl_cons]
    exact rewinds

theorem ask_known {β : Type} {access : Access} {v : Variable} (known : v < s.cells.size)
    (question : Cell α → β) :
    (do return question (← s.cell access v)) = Except.ok (question (cellOf s.cells v)) := by
  rw [cell, cellOf, Array.getElem?_eq_getElem known]
  rfl

theorem cellOf_new {v : Variable} (new : s.cells.size ≤ v) : cellOf s.cells v = .unbounded := by
  rw [cellOf, Array.getElem?_eq_none new]
  rfl

/-- Closing a checkpoint restores the bounds, the checkpoints and the log of the store that it was
opened on, and unless flags were cleared in between the flags too. A variable that was registered
in between is as a new one. -/
theorem popCheckpoint_restores (s : Store α) {calls : List (Call α)} (balanced : Balanced calls) :
    ∃ popped, (s.pushCheckpoint.perform calls).popCheckpoint = .ok popped ∧
      popped.depth = s.depth ∧ popped.trail.entryCount = s.trail.entryCount ∧
      s.size ≤ popped.size ∧
      (∀ v, v < s.size → popped.lower v = s.lower v ∧ popped.upper v = s.upper v) ∧
      (∀ v, s.size ≤ v → v < popped.size →
        popped.lower v = .ok (-Scalar.infinity) ∧ popped.upper v = .ok Scalar.infinity) ∧
      (.clearFlags ∉ calls →
        (∀ v, v < s.size → popped.wasLowerTightened v = s.wasLowerTightened v ∧
          popped.wasUpperTightened v = s.wasUpperTightened v) ∧
        ∀ v, s.size ≤ v → v < popped.size →
          popped.wasLowerTightened v = .ok false ∧ popped.wasUpperTightened v = .ok false) := by
  obtain ⟨frame, rewinds⟩ := (pushCheckpoint_rewinds s).perform steady_bounds balanced
    fun _ _ => rfl
  obtain ⟨popped, run, trail, grown, bounds⟩ := rewinds.popCheckpoint
  have still : ∀ v, v < s.size → v < popped.cells.size := fun v known =>
    Nat.lt_of_lt_of_le known grown
  refine ⟨popped, run, by rw [depth, trail, depth], by rw [trail], grown, fun v known => ?_,
    fun v new known => ?_, fun uncleared => ?_⟩
  · simp only [lower, upper, ask_known known, ask_known (still v known), bounds v, and_self]
  · simp only [lower, upper, ask_known known, bounds v, cellOf_new new]
    exact ⟨rfl, rfl⟩
  · obtain ⟨frame, rewinds⟩ := (pushCheckpoint_rewinds s).perform steady_id balanced
      fun cleared => absurd cleared uncleared
    obtain ⟨other, run', -, -, cells⟩ := rewinds.popCheckpoint
    obtain rfl : popped = other := Except.ok.inj (run.symm.trans run')
    have same : ∀ v, cellOf popped.cells v = cellOf s.cells v := cells
    refine ⟨fun v known => ?_, fun v new known => ?_⟩
    · simp only [wasLowerTightened, wasUpperTightened, ask_known known, ask_known (still v known),
        same v, and_self]
    · simp only [wasLowerTightened, wasUpperTightened, ask_known known, same v, cellOf_new new]
      exact ⟨rfl, rfl⟩

/-- A crossing interval, an undefined bound, a new variable and a nested checkpoint, all undone. -/
theorem popCheckpoint_restores_nested :
    let s := (Store.new Tolerance.exact).perform [.register, .pushCheckpoint, .tighten (.lower 0 1)]
    let calls : List (Call Extended) := [
      .tighten (.upper 0 7), .register, .tightenAll [.lower 1 2, .upper 1 undefined],
      .pushCheckpoint, .tightenBounds 0 ⟨9, 8⟩, .clearFlags, .popCheckpoint,
      .applySnapshot ⟨#[⟨4, 6⟩, ⟨5, 3⟩]⟩]
    Balanced calls ∧ (s.pushCheckpoint.perform calls).lower 0 = .ok 4 ∧
      ∃ popped, (s.pushCheckpoint.perform calls).popCheckpoint = .ok popped ∧
        popped.depth = s.depth ∧ popped.trail.entryCount = s.trail.entryCount ∧
        s.size ≤ popped.size ∧
        (∀ v, v < s.size → popped.lower v = s.lower v ∧ popped.upper v = s.upper v) ∧
        (∀ v, s.size ≤ v → v < popped.size →
          popped.lower v = .ok (-Scalar.infinity) ∧ popped.upper v = .ok Scalar.infinity) := by
  intro s calls
  have nested : Balanced [.tightenBounds 0 (⟨9, 8⟩ : Interval Extended), .clearFlags] :=
    .call nofun nofun (.call nofun nofun .nil)
  have rest : Balanced [.applySnapshot (⟨#[⟨4, 6⟩, ⟨5, 3⟩]⟩ : Snapshot Extended)] :=
    .call nofun nofun .nil
  have balanced : Balanced calls :=
    .call nofun nofun (.call nofun nofun (.call nofun nofun (.checkpoint nested rest)))
  refine ⟨balanced, by decide +kernel, ?_⟩
  obtain ⟨popped, run, depth, entries, grown, old, new, -⟩ := popCheckpoint_restores s balanced
  exact ⟨popped, run, depth, entries, grown, old, new⟩

end Rewinding

end ReluSolver.Store
