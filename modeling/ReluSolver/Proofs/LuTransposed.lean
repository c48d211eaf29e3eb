import ReluSolver.Proofs.LuFactors

/-! The factors of a matrix solve for its rows as well: substituting through the upper
triangle and then through the lower one, with the entries put back in row order. The
factors of the identity are its own. -/

namespace ReluSolver

open Extended Matrix

namespace Lu

variable {m : Nat} {A F : Matrix (Fin m) (Fin m) ℚ}

theorem identity_partial : (identity : Lu Extended m).Partial 1 m 1 := by
  have unmoved : ∀ i : Fin m, (identity : Lu Extended m).order.get i = i := fun i =>
    Vector.getElem_ofFn i.isLt
  refine ⟨fun i j => ?_, fun i j same => (unmoved i).symm.trans (same.trans (unmoved j)),
    fun t _ => by simp, fun i j => ?_⟩
  · simp only [identity, Square.identity, Square.ofEntries, Fin.getElem_fin, Vector.getElem_ofFn,
      Fin.eta, one_apply]
    split <;> simp
  · have none : ∀ t : Fin m, (if t.val < m ∧ t < i ∧ t ≤ j then
        (1 : Matrix (Fin m) (Fin m) ℚ) i t * (1 : Matrix (Fin m) (Fin m) ℚ) t j else 0) = 0 := by
      intro t
      split
      next below => rw [one_apply_ne below.2.1.ne', zero_mul]
      next => rfl
    rw [combined, Finset.sum_congr rfl fun t _ => none t, Finset.sum_const_zero, zero_add,
      Nat.min_eq_left i.isLt.le, unmoved, one_apply]
    split
    next same => simp [same]
    next => simp

section Columns

theorem columnSum_finite {a : Square Extended m} (entries : a.Denotes F) {z : Vector Extended m}
    {Z : Fin m → ℚ} {i : Fin m} {rows : List (Fin m)} (known : ∀ k ∈ rows, z.get k = finite (Z k)) :
    columnSum a z i rows = finite (rows.map fun k => F k i * Z k).sum := by
  have products : rows.map (fun k => a[k][i] * z[k]) =
      (rows.map fun k => F k i * Z k).map finite := by
    rw [List.map_map]
    refine List.map_congr_left fun k member => ?_
    have entry : z[k] = finite (Z k) := known k member
    rw [entries k i, entry, mul_finite]
    rfl
  rw [columnSum, ← List.foldl_map (f := fun k => a[k][i] * z[k]) (g := (· + ·)), products, zero_eq,
    foldl_add_finite, zero_add]

theorem forward_columns {a : Square Extended m} (entries : a.Denotes F) (pivots : ∀ i, F i i ≠ 0)
    {y : Vector Extended m} {Y : Fin m → ℚ} (given : Denotes y Y) :
    ∃ Z : Fin m → ℚ,
      Denotes (fill (fun z i => (z.get i - columnSum a z i (before i)) / (a.get i).get i)
        (List.finRange m) y) Z ∧
      ∀ i, Z i = (Y i - ∑ k, if k < i then F k i * Z k else 0) / F i i := by
  refine fill_finite wellFounded_lt (fill_ascending _ y) given fun z Z i initial earlier => ?_
  have known : ∀ k ∈ before i, z.get k = finite (Z k) := fun k member =>
    earlier k (mem_before.mp member)
  have pivot : (a.get i).get i = finite (F i i) := entries i i
  rw [initial, columnSum_finite entries known, sub_finite, sum_before, pivot,
    div_finite _ (pivots i)]

theorem back_columns {a : Square Extended m} (entries : a.Denotes F) {y : Vector Extended m}
    {Y : Fin m → ℚ} (given : Denotes y Y) :
    ∃ W : Fin m → ℚ,
      Denotes (fill (fun z i => z.get i - columnSum a z i (after i)) (List.finRange m).reverse y) W ∧
      ∀ i, W i = Y i - ∑ k, if i < k then F k i * W k else 0 := by
  refine fill_finite wellFounded_gt (fill_descending _ y) given fun z W i initial later => ?_
  have known : ∀ k ∈ after i, z.get k = finite (W k) := fun k member =>
    later k (mem_after.mp member)
  rw [initial, columnSum_finite entries known, sub_finite, sum_after]

theorem upper_column {Y Z : Fin m → ℚ} {j : Fin m} (pivot : F j j ≠ 0)
    (upper : Z j = (Y j - ∑ k, if k < j then F k j * Z k else 0) / F j j) :
    ∑ t, (if t ≤ j then Z t * F t j else 0) = Y j := by
  have parts : ∀ t, (if t ≤ j then Z t * F t j else 0) =
      (if t = j then Z j * F j j else 0) + if t < j then F t j * Z t else 0 := by
    intro t
    rcases lt_trichotomy t j with less | rfl | greater
    · rw [if_pos less.le, if_neg less.ne, if_pos less, zero_add, mul_comm]
    · rw [if_pos le_rfl, if_pos rfl, if_neg (lt_irrefl t), add_zero]
    · rw [if_neg (not_le.mpr greater), if_neg greater.ne', if_neg (not_lt.mpr greater.le), add_zero]
  rw [Finset.sum_congr rfl fun t _ => parts t, Finset.sum_add_distrib, Finset.sum_ite_eq',
    if_pos (Finset.mem_univ j)]
  nth_rewrite 1 [upper]
  rw [div_mul_cancel₀ _ pivot]
  ring

/-- From the left the product of the triangles applies the lower one first. -/
theorem combined_column (W : Fin m → ℚ) (j : Fin m) :
    ∑ i, W i * combined F m i j =
      ∑ t, if t ≤ j then (W t + ∑ k, if t < k then F k t * W k else 0) * F t j else 0 := by
  have terms : ∀ i, W i * combined F m i j =
      (∑ t, if t ≤ j then (if t < i then F i t * W i else 0) * F t j else 0) +
        if i ≤ j then W i * F i j else 0 := by
    intro i
    rw [combined, mul_add, Finset.mul_sum]
    congr 1
    · refine Finset.sum_congr rfl fun t _ => ?_
      by_cases reached : t ≤ j
      · by_cases earlier : t < i
        · rw [if_pos ⟨t.isLt, earlier, reached⟩, if_pos reached, if_pos earlier]
          ring
        · rw [if_neg fun all => earlier all.2.1, if_pos reached, if_neg earlier, mul_zero, zero_mul]
      · rw [if_neg fun all => reached all.2.2, if_neg reached, mul_zero]
    · rw [Nat.min_eq_left i.isLt.le, mul_ite, mul_zero]
      rfl
  rw [Finset.sum_congr rfl fun i _ => terms i, Finset.sum_add_distrib, Finset.sum_comm,
    ← Finset.sum_add_distrib]
  refine Finset.sum_congr rfl fun t _ => ?_
  by_cases reached : t ≤ j
  · simp only [if_pos reached]
    rw [← Finset.sum_mul]
    ring
  · simp only [if_neg reached, Finset.sum_const_zero, add_zero]

end Columns

theorem scatter_entry {α : Type} {order : Vector (Fin m) m}
    (injective : Function.Injective order.get) (values init : Vector α m) {l : List (Fin m)}
    {i : Fin m} (member : i ∈ l) :
    (l.foldl (fun (x : Vector α m) (i : Fin m) =>
      x.set (order.get i) (values.get i) (order.get i).isLt) init).get (order.get i) =
        values.get i := by
  induction l using List.reverseRecOn with
  | nil => cases member
  | append_singleton rest k ih =>
    rw [List.foldl_append, List.foldl_cons, List.foldl_nil]
    refine (Vector.getElem_set _ _).trans ?_
    split
    next same => rw [injective (Fin.ext same)]
    next other =>
      rcases List.mem_append.mp member with earlier | last
      · exact ih earlier
      · rw [List.mem_singleton.mp last] at other
        exact absurd rfl other

theorem solveTransposed_solves {s : Lu Extended m} (done : s.Partial A m F)
    {y : Vector Extended m} {Y : Fin m → ℚ} (given : Denotes y Y) :
    ∃ X : Fin m → ℚ, Denotes (s.solveTransposed y) X ∧ X ᵥ* A = Y := by
  have pivots : ∀ i, F i i ≠ 0 := fun i => done.pivots i i.isLt
  have bijective := Finite.injective_iff_bijective.mp done.order
  obtain ⟨Z, forward, upper⟩ := forward_columns done.entries pivots given
  obtain ⟨W, backward, lower⟩ := back_columns done.entries forward
  have placed : ∀ i : Fin m, (s.solveTransposed y).get (s.order.get i) = finite (W i) := fun i =>
    (scatter_entry done.order _ y (List.mem_finRange i)).trans (backward i)
  refine ⟨fun r => ((s.solveTransposed y).get r).toRat, fun r => ?_, ?_⟩
  · obtain ⟨i, rfl⟩ := bijective.2 r
    exact (placed i).trans (congrArg (fun e => finite e.toRat) (placed i)).symm
  · funext j
    calc ∑ r, ((s.solveTransposed y).get r).toRat * A r j
        = ∑ i : Fin m, ((s.solveTransposed y).get (s.order.get i)).toRat * A (s.order.get i) j :=
          (bijective.sum_comp fun r => ((s.solveTransposed y).get r).toRat * A r j).symm
      _ = ∑ i, W i * combined F m i j := by simp only [placed, toRat_finite, done.product]
      _ = ∑ t, if t ≤ j then Z t * F t j else 0 := by
          have lowered : ∀ t, W t + (∑ k, if t < k then F k t * W k else 0) = Z t := fun t => by
            rw [lower t]
            ring
          simp only [combined_column, lowered]
      _ = Y j := upper_column (pivots j) (upper j)

end Lu

end ReluSolver
