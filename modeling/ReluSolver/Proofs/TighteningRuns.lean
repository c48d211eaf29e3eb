import ReluSolver.Proofs.CheckpointRestore
import ReluSolver.Proofs.NumberLaws
import ReluSolver.Proofs.ReluPass

/-! What a run of tightenings makes of the bounds. No bound gets wider by it. If the run is
rejected then nothing has changed, and if it is accepted then some bound has become
strictly tighter. -/

namespace ReluSolver

namespace Interval

variable {α : Type} [Scalar α]

structure Numeric (i : Interval α) : Prop where
  lower : Scalar.isUndefined i.lower = false
  upper : Scalar.isUndefined i.upper = false

/-- Each end is the same or strictly tighter. -/
structure Narrows (i outer : Interval α) : Prop where
  lower : i.lower = outer.lower ∨ outer.lower < i.lower
  upper : i.upper = outer.upper ∨ i.upper < outer.upper

/-- One of the ends is strictly tighter. -/
def Stricter (i outer : Interval α) : Prop := outer.lower < i.lower ∨ i.upper < outer.upper

@[refl] theorem Narrows.refl (i : Interval α) : i.Narrows i := ⟨.inl rfl, .inl rfl⟩

variable [LawfulScalar α] {i j outer : Interval α}

theorem all_numeric : (all : Interval α).Numeric :=
  ⟨LawfulScalar.negInfinity_defined, LawfulScalar.infinity_defined⟩

theorem Narrows.trans (first : i.Narrows j) (second : j.Narrows outer) : i.Narrows outer := by
  constructor
  · rcases first.lower with same | less
    · exact same ▸ second.lower
    · rcases second.lower with same | less'
      · exact .inr (same ▸ less)
      · exact .inr (LawfulScalar.lt_trans less' less)
  · rcases first.upper with same | less
    · exact same ▸ second.upper
    · rcases second.upper with same | less'
      · exact .inr (same ▸ less)
      · exact .inr (LawfulScalar.lt_trans less less')

theorem Narrows.numeric (narrows : i.Narrows outer) (numeric : outer.Numeric) : i.Numeric := by
  constructor
  · rcases narrows.lower with same | less
    · exact same ▸ numeric.lower
    · exact (LawfulScalar.lt_defined less).2
  · rcases narrows.upper with same | less
    · exact same ▸ numeric.upper
    · exact (LawfulScalar.lt_defined less).1

theorem Narrows.stricter (narrows : i.Narrows j) (stricter : j.Stricter outer) :
    i.Stricter outer := by
  rcases stricter with less | less
  · rcases narrows.lower with same | less'
    · exact .inl (same ▸ less)
    · exact .inl (LawfulScalar.lt_trans less less')
  · rcases narrows.upper with same | less'
    · exact .inr (same ▸ less)
    · exact .inr (LawfulScalar.lt_trans less' less)

theorem Stricter.ne (stricter : i.Stricter outer) : i ≠ outer := by
  rintro rfl
  rcases stricter with less | less <;> exact LawfulScalar.lt_irrefl _ less

end Interval

namespace Store

variable {α : Type} [Scalar α] {s last : Store α} {ts : List (Tightening α)} {outcome : Outcome}

section Outcomes

theorem tighten_eq_ok {t : Tightening α} (run : tighten t s = .ok outcome last) :
    ∃ known : t.var < s.cells.size, s.place t known = (outcome, last) := by
  by_cases known : t.var < s.cells.size
  · rw [tighten_known known] at run
    obtain ⟨told, left⟩ := EStateM.Result.ok.inj run
    exact ⟨known, Prod.ext told left⟩
  · obtain ⟨cause, failed⟩ := tighten_unknown known
    cases failed.symm.trans run

theorem tightenAll_rejected (run : tightenAll ts s = .ok .rejected last) : last = s := by
  induction ts generalizing s with
  | nil => exact (EStateM.Result.ok.inj run).2.symm
  | cons t rest ih =>
    rcases andThen_eq_ok run with ⟨-, same⟩ | ⟨early, mid, late, first, -, later, same⟩
    · cases same
    obtain ⟨rfl, rfl⟩ := Outcome.merge_eq_rejected.mp same.symm
    rw [ih later]
    obtain ⟨known, placed⟩ := tighten_eq_ok first
    rcases place_cases s t known with ⟨-, shape⟩ | ⟨observer, -, shape⟩
    · exact (Prod.mk.inj (placed.symm.trans shape)).2
    · have told := (Prod.mk.inj (placed.symm.trans shape)).1
      split at told <;> cases told

theorem cellOf_set {cells : Array (Cell α)} {x : Variable} (known : x < cells.size) (c : Cell α)
    (v : Variable) : cellOf (cells.set x c known) v = if x = v then c else cellOf cells v := by
  unfold cellOf
  rw [Array.getElem?_set]
  split <;> rfl

theorem cellOf_known {cells : Array (Cell α)} {v : Variable} (known : v < cells.size) :
    cellOf cells v = cells[v] := by
  rw [cellOf, Array.getElem?_eq_getElem known]
  rfl

theorem interval_iff_cellOf {v : Variable} {bounds : Interval α} :
    s.interval v = .ok bounds ↔ v < s.size ∧ (cellOf s.cells v).bounds = bounds := by
  rw [interval_eq_ok]
  constructor
  · rintro ⟨c, found, rfl⟩
    obtain ⟨known, rfl⟩ := Array.getElem?_eq_some_iff.mp found
    exact ⟨known, by rw [cellOf_known known]⟩
  · rintro ⟨known, rfl⟩
    exact ⟨_, Array.getElem?_eq_getElem known, by rw [cellOf_known known]⟩

theorem interval_known {v : Variable} (known : v < s.size) :
    s.interval v = .ok (cellOf s.cells v).bounds :=
  interval_iff_cellOf.mpr ⟨known, rfl⟩

theorem put_narrows {c : Cell α} {side : Side} {value : α} (improves : c.improves side value = true)
    (flag : Bool) : (c.put side value flag).bounds.Narrows c.bounds ∧
      (c.put side value flag).bounds.Stricter c.bounds := by
  cases side with
  | lower =>
    have less : c.bounds.lower < value := of_decide_eq_true improves
    exact ⟨⟨.inr less, .inl rfl⟩, .inl less⟩
  | upper =>
    have less : value < c.bounds.upper := of_decide_eq_true improves
    exact ⟨⟨.inl rfl, .inr less⟩, .inr less⟩

theorem place_narrows (s : Store α) (t : Tightening α) (known : t.var < s.cells.size)
    (v : Variable) :
    (cellOf (s.place t known).2.cells v).bounds.Narrows (cellOf s.cells v).bounds := by
  rcases place_cases s t known with ⟨-, placed⟩ | ⟨observer, improves, placed⟩
  · rw [placed]
  · rw [placed]
    dsimp only
    rw [cellOf_set]
    split
    next here =>
      subst here
      rw [cellOf_known known]
      exact (put_narrows improves true).1
    next => rfl

variable [LawfulScalar α]

theorem Tightened.narrows (tightened : s.Tightened last) (v : Variable) :
    (cellOf last.cells v).bounds.Narrows (cellOf s.cells v).bounds := by
  induction tightened with
  | refl => rfl
  | place _ t known ih => exact (place_narrows _ t known v).trans ih

/-- Of accepted tightenings, one makes a bound strictly tighter. -/
theorem tightenAll_accepted (run : tightenAll ts s = .ok .accepted last) :
    ∃ v, (cellOf last.cells v).bounds.Stricter (cellOf s.cells v).bounds := by
  induction ts generalizing s with
  | nil => cases (EStateM.Result.ok.inj run).1
  | cons t rest ih =>
    rcases andThen_eq_ok run with ⟨-, same⟩ | ⟨early, mid, late, first, -, later, same⟩
    · cases same
    obtain ⟨known, placed⟩ := tighten_eq_ok first
    have narrows := ((tightenAll_tightened _ rest).ok .refl later).narrows
    rcases place_cases s t known with ⟨-, shape⟩ | ⟨observer, improves, shape⟩
    · obtain ⟨rfl, rfl⟩ := Prod.mk.inj (placed.symm.trans shape)
      rw [Outcome.rejected_merge] at same
      exact ih (same ▸ later)
    · obtain ⟨-, rfl⟩ := Prod.mk.inj (placed.symm.trans shape)
      refine ⟨t.var, (narrows t.var).stricter ?_⟩
      dsimp only
      rw [cellOf_set, if_pos rfl, cellOf_known known]
      exact (put_narrows improves true).2

end Outcomes

end Store

end ReluSolver
