import ReluSolver.Proofs.RowHulls
import ReluSolver.Proofs.StoreTightening

/-! Tightening by rows never cuts off an assignment that satisfies them. The range
of a row is added up once; it stays right for every later term of the row because
the terms are about different variables. -/

namespace ReluSolver

open Extended

namespace Store

theorem interval_of_cell {α : Type} [Scalar α] {s : Store α} {v : Nat} {c : Cell α}
    (found : s.cells[v]? = some c) : s.interval v = .ok c.bounds := by
  simp [interval, lower, upper, cell, found, bind, Except.bind, pure, Except.pure]

end Store

theorem RowRange.ofRow_eq {row : Equation Extended} {s : Store Extended}
    {box : Variable → Interval Extended}
    (seen : ∀ a ∈ row.addends, s.interval a.var = .ok (box a.var)) :
    RowRange.ofRow row s = .ok (RowRange.ofBox row.addends box) := by
  have folded : ∀ (addends : List (Addend Extended)) (r : RowRange Extended),
      (∀ a ∈ addends, s.interval a.var = .ok (box a.var)) →
      addends.foldlM (m := Except Fault)
        (fun r a => return r.add (ofTerm a.coefficient (← s.interval a.var))) r =
      .ok ⟨(addends.map fun a => (ofTerm a.coefficient (box a.var)).lower).foldl CountedSum.add r.least,
        (addends.map fun a => (ofTerm a.coefficient (box a.var)).upper).foldl CountedSum.add
          r.greatest⟩ := by
    intro addends
    induction addends with
    | nil => exact fun r _ => rfl
    | cons a rest ih =>
      intro r each
      rw [List.foldlM_cons, each a (by simp)]
      exact ih _ fun other member => each other (by simp [member])
  exact folded row.addends _ seen

namespace Effort

open Deduction

variable {effort : Effort Extended} {size : Nat} {x : Variable → ℚ}

theorem derive_encloses {t : Tightening Extended} (holds : t.Holds x) (known : t.var < size)
    {s : Store Extended} (encloses : s.Encloses size x) :
    Returns (· = s) (derive t)
      fun _ last => last.Encloses size x ∧ ∀ v : Nat, v ≠ t.var → last.cells[v]? = s.cells[v]? := by
  intro start same
  have result := Store.tighten_encloses holds encloses start same
  unfold derive
  cases run : Store.tighten t start with
  | error cause last =>
    rw [run] at result
    exact absurd known (not_lt.mpr result.2)
  | ok outcome last =>
    rw [run] at result
    cases outcome with
    | infeasible => exact absurd rfl result.1
    | accepted | rejected => exact result.2

theorem improve_encloses {t : Tightening Extended} (holds : t.Holds x) (known : t.var < size)
    {s : Store Extended} (encloses : s.Encloses size x) :
    Returns (· = s) (effort.improve t)
      fun _ last => last.Encloses size x ∧ ∀ v : Nat, v ≠ t.var → last.cells[v]? = s.cells[v]? := by
  have cell := Array.getElem?_eq_getElem (show t.var < s.cells.size from encloses.size_eq ▸ known)
  apply Ends.through fun bounds last => last = s
  · intro start same
    simp only [observe, same, Store.interval_of_cell cell]
  · intro bounds
    split
    next => exact derive_encloses holds known encloses
    next =>
      refine .pure fun last same => ?_
      rw [same]
      exact ⟨encloses, fun _ _ => rfl⟩

theorem offer_contains {row : Equation Extended} (formed : row.WellFormed) (holds : row.Holds x)
    {box : Variable → Interval Extended}
    (inside : ∀ a ∈ row.addends, (box a.var).Contains (x a.var)) {a : Addend Extended}
    (member : a ∈ row.addends) :
    (offer row (RowRange.ofBox row.addends box) a (box a.var)).Contains (x a.var) := by
  have proper : ∀ b ∈ row.addends, (box b.var).Proper := fun b term => (inside b term).proper
  have inner : ∀ b ∈ row.others a, b ∈ row.addends := fun b term => List.mem_of_mem_filter term
  rw [offer_eq formed proper member]
  refine Interval.contains_of_isEnd (Equation.rangeOf_isEnd formed proper member fun b term =>
    Extended.le_trans (inside b (inner b term)).lower (inside b (inner b term)).upper) ?_
  refine ⟨_, ⟨x, fun b term => inside b (inner b term), rfl⟩, ?_⟩
  obtain ⟨before, after, split⟩ := List.append_of_mem member
  have balance : a.coefficient.toRat * x a.var +
      ((row.others a).map fun b => b.coefficient.toRat * x b.var).sum = row.right := by
    rw [← formed.holds_iff.mp holds, Equation.left, formed.others_eq split, split]
    simp only [List.map_append, List.map_cons, List.sum_append, List.sum_cons]
    ring
  dsimp only
  rw [← balance, add_sub_cancel_right, mul_div_cancel_left₀ _ (formed.coefficient_ne_zero member)]

/-- The store encloses the assignment, and some terms still have the bounds that a row began with. -/
def Sees (size : Nat) (x : Variable → ℚ) (box : Variable → Interval Extended)
    (terms : List (Addend Extended)) (s : Store Extended) : Prop :=
  s.Encloses size x ∧ ∀ a ∈ terms, s.interval a.var = .ok (box a.var)

theorem improve_sees {box : Variable → Interval Extended} {terms : List (Addend Extended)}
    {t : Tightening Extended} (holds : t.Holds x) (known : t.var < size) (others : ∀ a ∈ terms, a.var ≠ t.var) :
    Returns (Sees size x box terms) (effort.improve t) fun _ => Sees size x box terms := by
  apply Ends.from_state
  rintro s ⟨encloses, seen⟩
  refine (improve_encloses holds known encloses).mono ?_
  rintro _ last ⟨after, same⟩
  refine ⟨after, fun a later => ?_⟩
  have cell := same a.var (others a later)
  simpa [Store.interval, Store.lower, Store.upper, Store.cell, Store.size, cell,
    after.size_eq, encloses.size_eq] using seen a later

/-- Every term is examined against its bounds from before the row was begun, because the terms
before it are about other variables. -/
theorem examineTerms_encloses {row : Equation Extended} (formed : row.WellFormed)
    (holds : row.Holds x) (known : ∀ a ∈ row.addends, a.var < size)
    {box : Variable → Interval Extended}
    (inside : ∀ a ∈ row.addends, (box a.var).Contains (x a.var))
    {before rest : List (Addend Extended)} (split : row.addends = before ++ rest)
    {s : Store Extended} (encloses : s.Encloses size x)
    (seen : ∀ a ∈ rest, s.interval a.var = .ok (box a.var)) :
    Returns (· = s) (effort.examineTerms row (RowRange.ofBox row.addends box) rest)
      fun _ last => last.Encloses size x := by
  induction rest generalizing before s with
  | nil => exact .pure fun last same => same ▸ encloses
  | cons a rest ih =>
    have split' : row.addends = (before ++ [a]) ++ rest := by simp [split]
    have small : a.var < size := known a (by simp [split])
    have others : ∀ b ∈ rest, b.var ≠ a.var := by
      have distinct := formed.distinct
      rw [split, List.map_append, List.map_cons] at distinct
      have apart := (List.nodup_cons.mp (List.nodup_append.mp distinct).2.1).1
      intro b later same
      exact apart (same ▸ List.mem_map_of_mem later)
    have left : Sees size x box rest s := ⟨encloses, fun b later => seen b (by simp [later])⟩
    have offered := offer_contains formed holds inside (show a ∈ row.addends by simp [split])
    unfold examineTerms
    split
    next => exact ih split' encloses left.2
    next =>
      apply Ends.through fun bounds last => bounds = box a.var ∧ last = s
      · intro start same
        simp only [observe, same, seen a (by simp), and_self]
      intro bounds
      apply Ends.from_state
      rintro _ ⟨rfl, rfl⟩
      apply Ends.through fun _ => Sees size x box rest
      · exact (improve_sees (t := .lower a.var _) (x := x) offered.lower small others).here left
      intro _
      apply Ends.through fun _ => Sees size x box rest
      · exact improve_sees (t := .upper a.var _) (x := x) offered.upper small others
      intro _
      apply Ends.from_state
      rintro s ⟨encloses, seen⟩
      exact (ih split' encloses seen).bind fun _ => .pure fun _ kept => kept

theorem examineRow_encloses {row : Equation Extended} (formed : row.WellFormed)
    (holds : row.Holds x) (known : ∀ a ∈ row.addends, a.var < size)
    (nonnegative : 0 ≤ effort.tolerance.epsilon) :
    Returns (Store.Encloses size x) (effort.examineRow row) fun _ last => last.Encloses size x := by
  apply Ends.from_state
  intro s encloses
  unfold examineRow
  split
  next empty =>
    have zero : row.scalar = finite 0 := by
      have none : row.addends = [] := by simpa [Equation.isEmpty] using empty
      rw [formed.scalar_eq, ← formed.holds_iff.mp holds, Equation.left, none]
      rfl
    have accepted : effort.tolerance.isZero row.scalar = true := by
      rw [zero]
      simpa [Tolerance.isZero] using nonnegative
    rw [if_pos accepted]
    exact .pure fun last same => same ▸ encloses
  next =>
    have cell : ∀ a ∈ row.addends, s.cells[a.var]? = some (s.cells.getD a.var Cell.unbounded) := by
      intro a member
      have inside : a.var < s.cells.size := encloses.size_eq ▸ known a member
      simp [inside]
    let box : Variable → Interval Extended := fun v => (s.cells.getD v Cell.unbounded).bounds
    have seen : ∀ a ∈ row.addends, s.interval a.var = .ok (box a.var) :=
      fun a member => Store.interval_of_cell (cell a member)
    apply Ends.through fun range last => range = RowRange.ofBox row.addends box ∧ last = s
    · intro start same
      simp only [observe, same, RowRange.ofRow_eq seen, and_self]
    intro range
    apply Ends.from_state
    rintro last ⟨rfl, same⟩
    rw [same]
    exact examineTerms_encloses formed holds known
      (fun a member => encloses.admits a.var _ (cell a member)) (List.nil_append _).symm encloses seen

variable {rows : List (Equation Extended)}

theorem passOver_encloses (formed : ∀ row ∈ rows, row.WellFormed) (hold : ∀ row ∈ rows, row.Holds x)
    (known : ∀ row ∈ rows, ∀ a ∈ row.addends, a.var < size)
    (nonnegative : 0 ≤ effort.tolerance.epsilon) :
    Returns (Store.Encloses size x) (effort.passOver rows) fun _ last => last.Encloses size x := by
  induction rows with
  | nil => exact .pure fun _ kept => kept
  | cons row rest ih =>
    apply Ends.bind (examineRow_encloses (formed row (by simp)) (hold row (by simp))
      (known row (by simp)) nonnegative)
    intro _
    exact (ih (fun r member => formed r (by simp [member])) (fun r member => hold r (by simp [member]))
      fun r member => known r (by simp [member])).bind fun _ => .pure fun _ kept => kept

theorem passes_encloses (formed : ∀ row ∈ rows, row.WellFormed) (hold : ∀ row ∈ rows, row.Holds x)
    (known : ∀ row ∈ rows, ∀ a ∈ row.addends, a.var < size)
    (nonnegative : 0 ≤ effort.tolerance.epsilon) (untilSaturation : Bool) (rounds : Nat)
    {pending : List (Equation Extended)} (chosen : pending ⊆ rows) :
    Returns (Store.Encloses size x) (effort.passes rows untilSaturation rounds pending)
      fun _ last => last.Encloses size x := by
  induction rounds generalizing pending with
  | zero => exact .pure fun _ kept => kept
  | succ rounds ih =>
    apply Ends.bind (passOver_encloses (fun r member => formed r (chosen member))
      (fun r member => hold r (chosen member)) (fun r member => known r (chosen member)) nonnegative)
    intro tightened
    split
    · exact .pure fun _ kept => kept
    · exact (ih (List.filter_subset_self _)).bind fun _ => .pure fun _ kept => kept

/-- Examining rows succeeds and keeps every assignment that satisfies all of them. -/
theorem examineRows_encloses (formed : ∀ row ∈ rows, row.WellFormed)
    (hold : ∀ row ∈ rows, row.Holds x) (known : ∀ row ∈ rows, ∀ a ∈ row.addends, a.var < size)
    (nonnegative : 0 ≤ effort.tolerance.epsilon) (untilSaturation : Bool) :
    Returns (Store.Encloses size x) (effort.examineRows rows untilSaturation)
      fun _ last => last.Encloses size x := by
  have read : Ends (Store.Encloses size x) (get : Deduction Extended (Store Extended))
      (fun s last => s.size = size ∧ last.Encloses size x) fun _ _ => False :=
    .get fun s encloses => ⟨encloses.size_eq, encloses⟩
  apply read.bind
  intro s
  apply Ends.from_state
  rintro last ⟨same, encloses⟩
  dsimp only
  have inside : (rows.any fun row => row.addends.any fun a => decide (s.size ≤ a.var)) = false := by
    rw [List.any_eq_false]
    intro row member
    rw [Bool.not_eq_true, List.any_eq_false]
    intro a term
    have := known row member a term
    simpa [same] using this
  rw [inside]
  exact (passes_encloses formed hold known nonnegative untilSaturation _ (List.Subset.refl rows)).weaken
    (fun _ equal => equal ▸ encloses) (fun _ _ kept => kept) fun _ _ failed => failed

section Tightened

variable {α : Type} [Scalar α] (effort : Effort α) (start : Store α)

theorem observe_tightened {β : Type} (f : Store α → Except Fault β) :
    Preserves (Store.Tightened start) (observe f) := by
  intro s before
  unfold observe
  cases f s <;> exact before

theorem derive_tightened (t : Tightening α) : Preserves (Store.Tightened start) (derive t) := by
  intro s before
  have result := Store.tighten_tightened start t s before
  unfold derive
  cases run : Store.tighten t s with
  | error cause last => rw [run] at result; exact result
  | ok outcome last =>
    rw [run] at result
    cases outcome <;> exact result

theorem improve_tightened (t : Tightening α) :
    Preserves (Store.Tightened start) (effort.improve t) := by
  apply Ends.bind (observe_tightened start _)
  intro bounds
  split
  · exact derive_tightened start t
  · exact .pure fun _ kept => kept

theorem examineTerms_tightened (row : Equation α) (range : RowRange α) (addends : List (Addend α)) :
    Preserves (Store.Tightened start) (effort.examineTerms row range addends) := by
  induction addends with
  | nil => exact .pure fun _ kept => kept
  | cons a rest ih =>
    unfold examineTerms
    split
    · exact ih
    · apply Ends.bind (observe_tightened start _)
      intro _
      apply Ends.bind (improve_tightened effort start _)
      intro _
      apply Ends.bind (improve_tightened effort start _)
      intro _
      exact ih.bind fun _ => .pure fun _ kept => kept

theorem examineRow_tightened (row : Equation α) :
    Preserves (Store.Tightened start) (effort.examineRow row) := by
  have terms := (observe_tightened start (RowRange.ofRow row)).bind fun range =>
    examineTerms_tightened effort start row range row.addends
  unfold examineRow
  split
  · split
    · exact .pure fun _ kept => kept
    · exact .throw fun _ kept => kept
  · exact terms

theorem passOver_tightened (rows : List (Equation α)) :
    Preserves (Store.Tightened start) (effort.passOver rows) := by
  induction rows with
  | nil => exact .pure fun _ kept => kept
  | cons row rest ih =>
    apply Ends.bind (examineRow_tightened effort start row)
    intro _
    exact ih.bind fun _ => .pure fun _ kept => kept

theorem passes_tightened (rows : List (Equation α)) (untilSaturation : Bool) (rounds : Nat)
    (pending : List (Equation α)) :
    Preserves (Store.Tightened start) (effort.passes rows untilSaturation rounds pending) := by
  induction rounds generalizing pending with
  | zero => exact .pure fun _ kept => kept
  | succ rounds ih =>
    apply Ends.bind (passOver_tightened effort start pending)
    intro tightened
    split
    · exact .pure fun _ kept => kept
    · exact (ih _).bind fun _ => .pure fun _ kept => kept

theorem examineRows_tightened (rows : List (Equation α)) (untilSaturation : Bool) :
    Preserves (Store.Tightened start) (effort.examineRows rows untilSaturation) := by
  apply Ends.bind (Ends.get fun _ kept => kept)
  intro s
  dsimp only
  split
  · exact .throw fun _ kept => kept
  · exact passes_tightened effort start rows untilSaturation _ rows

end Tightened

end Effort

end ReluSolver
