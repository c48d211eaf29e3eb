import Mathlib.Data.List.Basic
import ReluSolver.Proofs.Solutions
import ReluSolver.Proofs.TighteningLists

/-! Tightening keeps every assignment that respects the tightenings, and it never
touches what the open checkpoints have saved. -/

namespace ReluSolver.Store

open Extended

section Saved

variable {α : Type}

def undoCell (cells : Array (Cell α)) (e : TrailEntry α) : Array (Cell α) :=
  cells.modify e.var (·.put e.side e.oldValue e.oldFlag)

def savedBelow : List (List (TrailEntry α)) → Array (Cell α) → List (Array (Cell α))
  | [], _ => []
  | frame :: outer, cells =>
    let below := frame.foldl undoCell cells
    below :: savedBelow outer below

/-- The cells as they were at each open checkpoint, the innermost first. -/
def saved (s : Store α) : List (Array (Cell α)) := savedBelow s.trail.frames s.cells

theorem foldl_undo (entries : List (TrailEntry α)) (s : Store α) :
    entries.foldl undo s = { s with cells := entries.foldl undoCell s.cells } := by
  induction entries generalizing s with
  | nil => rfl
  | cons entry rest ih =>
    rw [List.foldl_cons, ih]
    rfl

theorem saved_pushCheckpoint (s : Store α) : s.pushCheckpoint.saved = s.cells :: s.saved := rfl

theorem popCheckpoint_of_saved {s : Store α} {cells : Array (Cell α)} {rest : List (Array (Cell α))}
    (held : s.saved = cells :: rest) :
    ∃ popped, s.popCheckpoint = .ok popped ∧ popped.cells = cells ∧ popped.saved = rest ∧
      popped.tolerance = s.tolerance ∧ popped.observer = s.observer := by
  obtain ⟨current, ⟨frames⟩, observer, tolerance⟩ := s
  cases frames with
  | nil => cases held
  | cons frame outer =>
    simp only [saved, savedBelow, List.cons.injEq] at held
    obtain ⟨rfl, rfl⟩ := held
    simp only [popCheckpoint, Trail.pop?, foldl_undo]
    exact ⟨_, rfl, rfl, rfl, rfl, rfl⟩

theorem saved_of_popCheckpoint {s popped : Store α} (run : s.popCheckpoint = .ok popped) :
    s.saved = popped.cells :: popped.saved ∧ popped.tolerance = s.tolerance ∧
      popped.observer = s.observer := by
  cases shape : s.saved with
  | nil =>
    obtain ⟨current, ⟨frames⟩, observer, tolerance⟩ := s
    cases frames with
    | nil => cases run
    | cons frame outer => cases shape
  | cons cells rest =>
    obtain ⟨other, same, kept, outer, tolerance, observer⟩ := popCheckpoint_of_saved shape
    obtain rfl : other = popped := Except.ok.inj (same.symm.trans run)
    exact ⟨by rw [kept, outer], tolerance, observer⟩

theorem undoCell_set {cells : Array (Cell α)} {x : Variable} (known : x < cells.size)
    (side : Side) (value : α) (flag : Bool) :
    undoCell (cells.set x (cells[x].put side value flag) known)
      ⟨x, side, cells[x].value side, cells[x].flag side⟩ = cells := by
  apply Array.ext (by simp [undoCell])
  intro v first second
  simp only [undoCell, Array.getElem_modify, Array.getElem_set]
  split
  next same =>
    subst same
    cases side <;> rfl
  next => rfl

end Saved

section Tightened

variable {α : Type} [Scalar α]

/-- A tightening that improves a bound is logged, and any other one changes nothing. -/
theorem place_cases (s : Store α) (t : Tightening α) (known : t.var < s.cells.size) :
    (s.cells[t.var].improves t.side t.value = false ∧ s.place t known = (.rejected, s)) ∨
    ∃ observer, s.cells[t.var].improves t.side t.value = true ∧
      s.place t known =
        (if (s.cells[t.var].put t.side t.value true).isConsistent s.tolerance then .accepted
          else .infeasible,
        { cells := s.cells.set t.var (s.cells[t.var].put t.side t.value true) known
          trail := s.trail.record
            ⟨t.var, t.side, s.cells[t.var].value t.side, s.cells[t.var].flag t.side⟩
          observer := observer
          tolerance := s.tolerance }) := by
  cases improves : s.cells[t.var].improves t.side t.value with
  | false => exact .inl ⟨rfl, by simp [place, improves]⟩
  | true =>
    cases consistent : (s.cells[t.var].put t.side t.value true).isConsistent s.tolerance with
    | true => exact .inr ⟨s.observer.notify t, rfl, by simp [place, improves, consistent]⟩
    | false => exact .inr ⟨s.observer, rfl, by simp [place, improves, consistent]⟩

theorem tighten_known {s : Store α} {t : Tightening α} (known : t.var < s.cells.size) :
    (tighten t s : EStateM.Result Fault _ _) = .ok (s.place t known).1 (s.place t known).2 := by
  simp [tighten, known]

theorem tighten_unknown {s : Store α} {t : Tightening α} (unknown : ¬ t.var < s.cells.size) :
    ∃ cause, (tighten t s : EStateM.Result Fault _ _) = .error cause s := by
  simp [tighten, unknown]

/-- What a run of tightenings makes of a store. -/
inductive Tightened (start : Store α) : Store α → Prop where
  | refl : Tightened start start
  | place {s : Store α} (before : Tightened start s) (t : Tightening α)
      (known : t.var < s.cells.size) : Tightened start (s.place t known).2

theorem saved_place (s : Store α) (t : Tightening α) (known : t.var < s.cells.size) :
    (s.place t known).2.saved = s.saved := by
  rcases place_cases s t known with ⟨-, same⟩ | ⟨observer, -, same⟩
  · rw [same]
  · rw [same]
    obtain ⟨cells, ⟨frames⟩, heard, tolerance⟩ := s
    cases frames with
    | nil => rfl
    | cons frame outer =>
      simp only [saved, Trail.record, savedBelow, List.foldl_cons]
      rw [undoCell_set known]

namespace Tightened

variable {start s : Store α}

theorem saved_eq (tightened : Tightened start s) : s.saved = start.saved := by
  induction tightened with
  | refl => rfl
  | place _ t known ih => rw [saved_place, ih]

theorem size_eq (tightened : Tightened start s) : s.size = start.size := by
  induction tightened with
  | refl => rfl
  | @place s _ t known ih =>
    rw [← ih]
    rcases place_cases s t known with ⟨-, same⟩ | ⟨observer, -, same⟩
    · rw [same]
    · rw [same]
      simp [size]

theorem tolerance_eq (tightened : Tightened start s) : s.tolerance = start.tolerance := by
  induction tightened with
  | refl => rfl
  | @place s _ t known ih =>
    rw [← ih]
    rcases place_cases s t known with ⟨-, same⟩ | ⟨observer, -, same⟩ <;> rw [same]

end Tightened

theorem tighten_tightened (start : Store α) (t : Tightening α) :
    Preserves (Tightened start) (tighten t) := by
  intro s before
  by_cases known : t.var < s.cells.size
  · rw [tighten_known known]
    exact before.place t known
  · obtain ⟨cause, run⟩ := tighten_unknown known
    rw [run]
    exact before

theorem tightenAll_tightened (start : Store α) (ts : List (Tightening α)) :
    Preserves (Tightened start) (tightenAll ts) := by
  induction ts with
  | nil => exact .pure fun _ kept => kept
  | cons t rest ih =>
    apply Ends.bind (tighten_tightened start t)
    intro outcome
    split
    · exact .pure fun _ kept => kept
    · exact ih.bind fun _ => .pure fun _ kept => kept

theorem tightenFrom_tightened (start : Store α) (x : Variable) (bounds : List (Interval α)) :
    Preserves (Tightened start) (tightenFrom x bounds) :=
  tightenFrom_eq x bounds ▸ tightenAll_tightened start _

theorem applySnapshot_tightened (start : Store α) (snapshot : Snapshot α) :
    Preserves (Tightened start) (applySnapshot snapshot) := by
  apply Ends.bind (Ends.get fun _ kept => kept)
  intro s
  split
  · exact .pure fun _ kept => kept
  · exact (tightenFrom_tightened start 0 _).bind fun _ => .pure fun _ kept => kept

end Tightened

/-- The bounds of all variables contain their values. -/
def CellsAdmit (cells : Array (Cell Extended)) (x : Variable → ℚ) : Prop :=
  ∀ (v : Nat) (c : Cell Extended), cells[v]? = some c → c.bounds.Contains (x v)

/-- A store over `size` variables whose bounds contain an assignment. -/
structure Encloses (size : Nat) (x : Variable → ℚ) (s : Store Extended) : Prop where
  size_eq : s.cells.size = size
  tolerance : 0 ≤ s.tolerance.epsilon
  admits : CellsAdmit s.cells x

variable {size : Nat} {x : Variable → ℚ}

private theorem put_contains {c : Cell Extended} {t : Tightening Extended} {flag : Bool}
    (holds : t.Holds x) (inside : c.bounds.Contains (x t.var)) :
    (c.put t.side t.value flag).bounds.Contains (x t.var) := by
  obtain ⟨side, var, value⟩ := t
  cases side with
  | lower => exact ⟨holds, inside.upper⟩
  | upper => exact ⟨inside.lower, holds⟩

/-- A tightening that an enclosed assignment respects is not infeasible. -/
theorem tighten_encloses {t : Tightening Extended} (holds : t.Holds x) {s : Store Extended}
    (encloses : s.Encloses size x) :
    Ends (· = s) (tighten t)
      (fun outcome last => outcome ≠ .infeasible ∧ last.Encloses size x ∧
        ∀ v : Nat, v ≠ t.var → last.cells[v]? = s.cells[v]?)
      fun _ last => last = s ∧ size ≤ t.var := by
  intro start same
  rw [same]
  by_cases known : t.var < s.cells.size
  · rw [tighten_known known]
    rcases place_cases s t known with ⟨-, same⟩ | ⟨observer, -, same⟩
    · rw [same]
      exact ⟨nofun, encloses, fun _ _ => rfl⟩
    · have inside : (s.cells[t.var].put t.side t.value true).bounds.Contains (x t.var) :=
        put_contains holds (encloses.admits t.var s.cells[t.var] (Array.getElem?_eq_getElem known))
      have consistent : (s.cells[t.var].put t.side t.value true).isConsistent s.tolerance = true :=
        Tolerance.ge_of_contains encloses.tolerance inside
      rw [same, if_pos consistent]
      refine ⟨nofun, ⟨?_, encloses.tolerance, ?_⟩, ?_⟩
      · simpa using encloses.size_eq
      · intro v c found
        rw [Array.getElem?_set] at found
        split at found
        next equal =>
          cases found
          exact equal ▸ inside
        next => exact encloses.admits v c found
      · intro v other
        rw [Array.getElem?_set_ne known other.symm]
  · obtain ⟨cause, run⟩ := tighten_unknown known
    rw [run]
    exact ⟨rfl, encloses.size_eq ▸ not_lt.mp known⟩

theorem tightenAll_encloses {ts : List (Tightening Extended)} (hold : ∀ t ∈ ts, t.Holds x) :
    Ends (Encloses size x) (tightenAll ts)
      (fun outcome last => outcome ≠ .infeasible ∧ last.Encloses size x)
      fun _ last => last.Encloses size x ∧ ∃ t ∈ ts, size ≤ t.var := by
  induction ts with
  | nil => exact .pure fun _ encloses => ⟨nofun, encloses⟩
  | cons t rest ih =>
    have first : Ends (Encloses size x) (tighten t)
        (fun outcome last => outcome ≠ .infeasible ∧ last.Encloses size x)
        fun _ last => last.Encloses size x ∧ ∃ t' ∈ t :: rest, size ≤ t'.var :=
      .from_state fun s encloses => (tighten_encloses (hold t (by simp)) encloses).weaken
        (fun _ same => same) (fun _ _ kept => ⟨kept.1, kept.2.1⟩)
        fun _ _ failed => ⟨failed.1 ▸ encloses, t, by simp, failed.2⟩
    apply first.bind
    intro outcome
    split
    next infeasible =>
      refine .pure fun _ kept => absurd ?_ kept.1
      simpa [Outcome.isInfeasible] using infeasible
    next feasible =>
      have later := ih fun t' member => hold t' (by simp [member])
      apply Ends.bind (later.weaken (fun _ kept => kept.2) (fun _ _ kept => kept) ?_)
      · intro next
        refine .pure fun _ kept => ⟨fun merged => ?_, kept.2⟩
        rcases Outcome.merge_eq_infeasible.mp merged with rfl | same
        · exact feasible rfl
        · exact kept.1 same
      · rintro _ _ ⟨encloses, t', member, beyond⟩
        exact ⟨encloses, t', by simp [member], beyond⟩

theorem tightenBounds_encloses {v : Nat} {bounds : Interval Extended} (known : v < size)
    (inside : bounds.Contains (x v)) :
    Returns (Encloses size x) (tightenBounds v bounds)
      fun outcome last => outcome ≠ .infeasible ∧ last.Encloses size x := by
  have hold : ∀ t ∈ [Tightening.lower v bounds.lower, Tightening.upper v bounds.upper],
      t.Holds x := by
    intro t member
    rcases List.mem_pair.mp member with rfl | rfl
    · exact inside.lower
    · exact inside.upper
  refine (tightenAll_encloses hold).weaken (fun _ kept => kept) (fun _ _ kept => kept) ?_
  rintro _ _ ⟨-, t, member, beyond⟩
  rcases List.mem_pair.mp member with rfl | rfl <;> exact absurd known (not_lt.mpr beyond)

theorem tightenFrom_encloses {first : Nat} {bounds : List (Interval Extended)}
    (fits : first + bounds.length ≤ size)
    (inside : ∀ i (known : i < bounds.length), bounds[i].Contains (x (first + i))) :
    Returns (Encloses size x) (tightenFrom first bounds)
      fun outcome last => outcome ≠ .infeasible ∧ last.Encloses size x := by
  have hold : ∀ t ∈ Interval.tighteningsFrom first bounds, t.Holds x := by
    intro t member
    obtain ⟨i, known, rfl | rfl⟩ := Interval.mem_tighteningsFrom member
    · exact (inside i known).lower
    · exact (inside i known).upper
  rw [tightenFrom_eq]
  refine (tightenAll_encloses hold).weaken (fun _ kept => kept) (fun _ _ kept => kept) ?_
  rintro _ _ ⟨-, t, member, beyond⟩
  obtain ⟨i, known, shape⟩ := Interval.mem_tighteningsFrom member
  have here : first + i < size := by omega
  rcases shape with rfl | rfl <;> exact absurd here (not_lt.mpr beyond)

end ReluSolver.Store
