import Mathlib.Data.Matrix.Mul
import Mathlib.LinearAlgebra.Matrix.NonsingularInverse
import Mathlib.Tactic.FieldSimp
import Mathlib.Tactic.Linarith
import Mathlib.Tactic.Ring
import ReluSolver.Basis.Lu
import ReluSolver.Proofs.ExactNumbers
import ReluSolver.Proofs.Steps

/-! Exact elimination with pivoting factorizes: after `k` columns every row of the
matrix is the combination of the finished rows by its multipliers, plus what is left
of it. Substituting forward and back then solves, so the inverse is one. -/

namespace ReluSolver

open Extended

def Square.Denotes {m : Nat} (a : Square Extended m) (A : Matrix (Fin m) (Fin m) ℚ) : Prop :=
  ∀ i : Fin m, ReluSolver.Denotes (getElem a i i.isLt) (A i)

theorem sum_finRange {m : Nat} (f : Fin m → ℚ) : ((List.finRange m).map f).sum = ∑ j, f j := by
  rw [← List.sum_toFinset _ (List.nodup_finRange m), List.toFinset_finRange]

theorem denotes_ofFn {m : Nat} (x : Fin m → ℚ) : Denotes (Vector.ofFn fun i => finite (x i)) x :=
  fun i => Vector.getElem_ofFn i.isLt

namespace Lu

variable {m : Nat}

section Substitution

variable {α : Type}

/-- Sets entries one after another, each from the vector that the ones before it left. -/
def fill (g : Vector α m → Fin m → α) (l : List (Fin m)) (init : Vector α m) : Vector α m :=
  l.foldl (fun (z : Vector α m) (i : Fin m) => z.set i (g z i) i.isLt) init

theorem fill_untouched (g : Vector α m → Fin m → α) (l : List (Fin m)) (init : Vector α m)
    {j : Fin m} (other : j ∉ l) : (fill g l init).get j = init.get j := by
  induction l generalizing init with
  | nil => rfl
  | cons i rest ih =>
    simp only [List.mem_cons, not_or] at other
    have first : (init.set i (g init i) i.isLt)[j] = init[j] := by
      rw [Fin.getElem_fin, Fin.getElem_fin, Vector.getElem_set_ne]
      exact fun same => other.1 (Fin.ext same.symm)
    exact (ih _ other.2).trans first

/-- An entry is set from a vector that has its initial value there, and the final values of all
entries set before it. -/
theorem fill_entry (g : Vector α m → Fin m → α) {prior later : List (Fin m)} {i : Fin m}
    (distinct : (prior ++ i :: later).Nodup) (init : Vector α m) :
    ∃ z, (fill g (prior ++ i :: later) init).get i = g z i ∧ z.get i = init.get i ∧
      ∀ j ∈ prior, z.get j = (fill g (prior ++ i :: later) init).get j := by
  obtain ⟨-, tail, apart⟩ := List.nodup_append.mp distinct
  refine ⟨fill g prior init, ?_, ?_, fun j done => ?_⟩
  · have last := fill_untouched g later ((fill g prior init).set i (g (fill g prior init) i) i.isLt)
      (List.nodup_cons.mp tail).1
    have set : ((fill g prior init).set i (g (fill g prior init) i) i.isLt).get i =
        g (fill g prior init) i :=
      Vector.getElem_set_self i.isLt
    rw [← set, ← last, fill, List.foldl_append]
    rfl
  · exact fill_untouched g prior init fun member => apart i member i (by simp) rfl
  · have last := fill_untouched g (i :: later) (fill g prior init)
      fun member => apart j done j member rfl
    rw [← last, fill, fill, fill, List.foldl_append]

private theorem finRange_split (i : Fin m) : List.finRange m =
    (List.finRange m).take i ++ i :: (List.finRange m).drop (i + 1) := by
  have inside : i.val < (List.finRange m).length := by simp
  have here : (List.finRange m)[i.val] = i := by simp
  nth_rewrite 1 [← List.take_append_drop i.val (List.finRange m)]
  rw [List.drop_eq_getElem_cons inside, here]

theorem fill_ascending (g : Vector α m → Fin m → α) (init : Vector α m) (i : Fin m) :
    ∃ z, (fill g (List.finRange m) init).get i = g z i ∧ z.get i = init.get i ∧
      ∀ j < i, z.get j = (fill g (List.finRange m) init).get j := by
  have split := finRange_split i
  have distinct := List.nodup_finRange m
  rw [split] at distinct
  obtain ⟨z, entry, initial, done⟩ := fill_entry g distinct init
  rw [← split] at entry done
  refine ⟨z, entry, initial, fun j less => done j ?_⟩
  rw [List.mem_iff_getElem]
  exact ⟨j, by simpa using less, by simp⟩

theorem fill_descending (g : Vector α m → Fin m → α) (init : Vector α m) (i : Fin m) :
    ∃ z, (fill g (List.finRange m).reverse init).get i = g z i ∧ z.get i = init.get i ∧
      ∀ j > i, z.get j = (fill g (List.finRange m).reverse init).get j := by
  have split := congrArg List.reverse (finRange_split i)
  rw [List.reverse_append, List.reverse_cons, List.append_assoc, List.singleton_append] at split
  have distinct := List.nodup_reverse.mpr (List.nodup_finRange m)
  rw [split] at distinct
  obtain ⟨z, entry, initial, done⟩ := fill_entry g distinct init
  rw [← split] at entry done
  refine ⟨z, entry, initial, fun j greater => done j ?_⟩
  rw [List.mem_reverse, List.mem_iff_getElem]
  have apart : i.val < j.val := greater
  refine ⟨j - (i + 1), by simp; omega, ?_⟩
  simp only [List.getElem_drop, List.getElem_finRange]
  exact Fin.ext (by simp; omega)

theorem fill_finite {r : Fin m → Fin m → Prop} (founded : WellFounded r)
    {g : Vector Extended m → Fin m → Extended} {l : List (Fin m)} {init : Vector Extended m}
    (set : ∀ i, ∃ z, (fill g l init).get i = g z i ∧ z.get i = init.get i ∧
      ∀ j, r j i → z.get j = (fill g l init).get j)
    {h : (Fin m → ℚ) → Fin m → ℚ} {Y : Fin m → ℚ} (given : Denotes init Y)
    (entry : ∀ (z : Vector Extended m) (Z : Fin m → ℚ) (i : Fin m), z.get i = finite (Y i) →
      (∀ j, r j i → z.get j = finite (Z j)) → g z i = finite (h Z i)) :
    ∃ Z : Fin m → ℚ, Denotes (fill g l init) Z ∧ ∀ i, Z i = h Z i := by
  let last := fill g l init
  let Z : Fin m → ℚ := fun i => (last.get i).toRat
  have step : ∀ i : Fin m, (∀ j, r j i → last.get j = finite (Z j)) →
      last.get i = finite (h Z i) := by
    intro i before
    obtain ⟨z, here, initial, done⟩ := set i
    exact here.trans (entry z Z i (initial.trans (given i)) fun j earlier =>
      (done j earlier).trans (before j earlier))
  have all : ∀ i, last.get i = finite (Z i) := by
    intro i
    induction i using founded.induction with
    | _ i ih =>
      change _ = finite (last.get i).toRat
      rw [step i ih, toRat_finite]
  exact ⟨Z, all, fun i => finite.inj ((all i).symm.trans (step i fun j _ => all j))⟩

end Substitution

theorem mem_before {i j : Fin m} : j ∈ before i ↔ j < i := by simp [before]

theorem mem_after {i j : Fin m} : j ∈ after i ↔ i < j := by simp [after]

theorem sum_before (i : Fin m) (f : Fin m → ℚ) :
    ((before i).map f).sum = ∑ j, if j < i then f j else 0 := by
  rw [before, ← List.sum_toFinset _ ((List.nodup_finRange m).filter _), List.toFinset_filter,
    List.toFinset_finRange, Finset.sum_filter]
  simp

theorem sum_after (i : Fin m) (f : Fin m → ℚ) :
    ((after i).map f).sum = ∑ j, if i < j then f j else 0 := by
  rw [after, ← List.sum_toFinset _ ((List.nodup_finRange m).filter _), List.toFinset_filter,
    List.toFinset_finRange, Finset.sum_filter]
  simp

section Elimination

variable {A F : Matrix (Fin m) (Fin m) ℚ}

theorem pivotRow_ge (a : Square Extended m) (k : Fin m) : k ≤ pivotRow a k := by
  have each : ∀ (l : List (Fin m)) (best : Fin m), k ≤ best → (∀ i ∈ l, k ≤ i) →
      k ≤ l.foldl (fun best i => if Scalar.abs (a[best][k]) < Scalar.abs (a[i][k]) then i else best)
        best := by
    intro l
    induction l with
    | nil => exact fun _ least _ => least
    | cons i rest ih =>
      intro best least all
      rw [List.foldl_cons]
      apply ih _ _ fun j member => all j (List.mem_cons_of_mem _ member)
      split
      · exact all i (by simp)
      · exact least
  refine each _ k le_rfl fun i member => ?_
  exact le_of_lt (of_decide_eq_true (List.mem_filter.mp member).2)

/-- Row `i` of the matrix in pivot order, put together from factors of which `k` columns are done. -/
def combined (F : Matrix (Fin m) (Fin m) ℚ) (k : Nat) (i j : Fin m) : ℚ :=
  (∑ t, if t.val < k ∧ t < i ∧ t ≤ j then F i t * F t j else 0) +
    if min i.val k ≤ j.val then F i j else 0

/-- The first `k` columns are eliminated. -/
structure Partial (A : Matrix (Fin m) (Fin m) ℚ) (k : Nat) (s : Lu Extended m)
    (F : Matrix (Fin m) (Fin m) ℚ) : Prop where
  entries : s.factors.Denotes F
  order : Function.Injective s.order.get
  pivots : ∀ t : Fin m, t.val < k → F t t ≠ 0
  product : ∀ i j, A (s.order.get i) j = combined F k i j

/-- The factors after the pivot of column `k` is moved to the diagonal. -/
def swapped (F : Matrix (Fin m) (Fin m) ℚ) (k p : Fin m) : Matrix (Fin m) (Fin m) ℚ :=
  fun i j => F (Equiv.swap k p i) j

/-- The factors after column `k` is eliminated. -/
def eliminated (F : Matrix (Fin m) (Fin m) ℚ) (k : Fin m) : Matrix (Fin m) (Fin m) ℚ :=
  fun i j =>
    if k < i then
      if j = k then F i k / F k k else if k < j then F i j - F i k / F k k * F k j else F i j
    else F i j

/-- Rows from `k` on are interchangeable as long as only `k` columns are done. -/
theorem combined_swapped {k p : Fin m} (least : k ≤ p) (i j : Fin m) :
    combined (swapped F k p) k i j = combined F k (Equiv.swap k p i) j := by
  have fixed : ∀ t : Fin m, t < k → Equiv.swap k p t = t := fun t less =>
    Equiv.swap_apply_of_ne_of_ne less.ne (less.trans_le least).ne
  have place : (i < k ∧ Equiv.swap k p i = i) ∨ (k ≤ i ∧ k ≤ Equiv.swap k p i) := by
    rcases lt_or_ge i k with less | greater
    · exact .inl ⟨less, fixed i less⟩
    · refine .inr ⟨greater, ?_⟩
      rw [Equiv.swap_apply_def]
      split
      · exact least
      · split
        · exact le_rfl
        · exact greater
  unfold combined
  congr 1
  · apply Finset.sum_congr rfl
    intro t _
    by_cases less : t < k
    · have same : t < i ↔ t < Equiv.swap k p i := by
        rcases place with ⟨-, same⟩ | ⟨first, second⟩
        · rw [same]
        · exact iff_of_true (less.trans_le first) (less.trans_le second)
      simp only [same, swapped, fixed t less]
    · have not : ¬ t.val < k.val := less
      simp only [not, false_and, if_false]
  · have same : min i.val k = min (Equiv.swap k p i).val k := by
      rcases place with ⟨-, same⟩ | ⟨first, second⟩
      · rw [same]
      · rw [Nat.min_eq_right (show k.val ≤ i.val from first),
          Nat.min_eq_right (show k.val ≤ (Equiv.swap k p i).val from second)]
    rw [same]
    rfl

/-- Eliminating a column moves its share of a row into the finished part. -/
theorem combined_eliminated {k : Fin m} (pivot : F k k ≠ 0) (i j : Fin m) :
    combined (eliminated F k) (k + 1) i j = combined F k i j := by
  have term : ∀ t : Fin m, (if t.val < k.val + 1 ∧ t < i ∧ t ≤ j then
      eliminated F k i t * eliminated F k t j else 0) =
      (if t.val < k ∧ t < i ∧ t ≤ j then F i t * F t j else 0) +
        if t = k then (if k < i ∧ k ≤ j then F i k / F k k * F k j else 0) else 0 := by
    intro t
    rcases lt_trichotomy t k with less | rfl | greater
    · have first : eliminated F k i t = F i t := by
        unfold eliminated
        rw [if_neg less.ne, if_neg (not_lt.mpr less.le)]
        exact ite_self _
      have second : eliminated F k t j = F t j := if_neg (not_lt.mpr less.le)
      have early : t.val < k.val + 1 ↔ t.val < k.val := iff_of_true (by omega) less
      rw [first, second, if_neg less.ne, add_zero]
      exact if_congr (and_congr_left' early) rfl rfl
    · have second : eliminated F t t j = F t j := if_neg (lt_irrefl t)
      have none : ¬ (t.val < t.val ∧ t < i ∧ t ≤ j) := fun all => absurd all.1 (lt_irrefl _)
      rw [second, if_pos rfl, if_neg none, zero_add]
      by_cases below : t < i ∧ t ≤ j
      · rw [if_pos ⟨Nat.lt_succ_self _, below⟩, if_pos below, eliminated, if_pos below.1, if_pos rfl]
      · rw [if_neg fun all => below all.2, if_neg below]
    · have late : ¬ t.val < k.val + 1 ∧ ¬ t.val < k.val := by
        have : k.val < t.val := greater
        omega
      rw [if_neg fun all => late.1 all.1, if_neg fun all => late.2 all.1, if_neg greater.ne', add_zero]
  unfold combined
  rw [Finset.sum_congr rfl fun t _ => term t, Finset.sum_add_distrib, Finset.sum_ite_eq',
    if_pos (Finset.mem_univ k), add_assoc]
  congr 1
  rcases le_or_gt i k with above | below
  · have same : min i.val (k.val + 1) = min i.val k.val := by
      have : i.val ≤ k.val := above
      omega
    rw [if_neg fun both => absurd both.1 (not_lt.mpr above), zero_add, same]
    exact if_congr Iff.rfl (if_neg (not_lt.mpr above)) rfl
  · have sizes : min i.val (k.val + 1) = k.val + 1 ∧ min i.val k.val = k.val := by
      have : k.val < i.val := below
      omega
    rw [sizes.1, sizes.2, eliminated, if_pos below]
    rcases lt_trichotomy j k with less | rfl | greater
    · have values : ¬ k.val + 1 ≤ j.val ∧ ¬ k.val ≤ j.val := by
        have : j.val < k.val := less
        omega
      rw [if_neg fun both => absurd both.2 (not_le.mpr less), if_neg values.1, if_neg values.2, add_zero]
    · rw [if_pos ⟨below, le_rfl⟩, if_neg (by omega), if_pos le_rfl, add_zero]
      field_simp
    · have values : k.val + 1 ≤ j.val ∧ k.val ≤ j.val := by
        have : k.val < j.val := greater
        omega
      rw [if_pos ⟨below, greater.le⟩, if_pos values.1, if_pos values.2, if_neg greater.ne',
        if_pos greater]
      ring

private theorem get_swap_eq {α : Type} (v : Vector α m) (k p i : Fin m) :
    (v.swap k p k.isLt p.isLt).get i = v.get (Equiv.swap k p i) := by
  change (v.swap k p)[i] = v[Equiv.swap k p i]
  have at_image : ∀ j, Equiv.swap k p i = j → v[Equiv.swap k p i] = v[j] := by
    rintro _ rfl
    rfl
  rw [Fin.getElem_fin, Vector.getElem_swap]
  simp only [Fin.val_inj]
  split
  next left =>
    subst left
    exact (at_image p (Equiv.swap_apply_left _ _)).symm
  next notLeft =>
    split
    next right =>
      subst right
      exact (at_image k (Equiv.swap_apply_right _ _)).symm
    next notRight => exact (at_image i (Equiv.swap_apply_of_ne_of_ne notLeft notRight)).symm

theorem pos_of_le_finite {e : Extended} {r : ℚ} (positive : 0 < e) (least : e ≤ finite r) : 0 < r := by
  rw [zero_eq] at positive
  rcases le_finite_cases least with rfl | ⟨s, rfl, le⟩
  · cases positive
  · exact (lt_finite.mp positive).trans_le le

theorem eliminateRow_denotes {rows : Square Extended m} {G : Matrix (Fin m) (Fin m) ℚ}
    (entries : rows.Denotes G) {k i : Fin m} (pivot : G k k ≠ 0) (below : k < i) :
    Denotes (eliminateRow k (rows.get k) (rows.get i)) (eliminated G k i) := by
  intro j
  change (eliminateRow k rows[k] rows[i])[j] = _
  have quotient : rows[i][k] / rows[k][k] = finite (G i k / G k k) := by
    rw [entries, entries, div_finite _ pivot]
  rw [eliminateRow, Fin.getElem_fin, Vector.getElem_ofFn, eliminated, if_pos below]
  by_cases here : j = k
  · rw [if_pos here, if_pos here]
    exact quotient
  · rw [if_neg here, if_neg here]
    change (if (k < j && !(rows[i][k] / rows[k][k] == 0)) = true
      then rows[i][j] - rows[i][k] / rows[k][k] * rows[k][j] else rows[i][j]) = _
    rw [quotient, entries, entries, mul_finite, sub_finite, zero_eq, beq_finite]
    by_cases right : k < j
    · by_cases zero : G i k / G k k = 0
      · simp [right, zero]
      · simp [right, zero]
    · simp [right]

theorem eliminateRows_partial {s : Lu Extended m} {k p : Fin m} (done : s.Partial A k F)
    (least : k ≤ p) (pivot : F p k ≠ 0) :
    Partial A (k + 1)
      ⟨(s.factors.swap k p).mapFinIdx fun i row below =>
          if k < ⟨i, below⟩ then eliminateRow k (s.factors.swap k p)[k] row else row,
        s.order.swap k p⟩
      (eliminated (swapped F k p) k) := by
  have pivot : swapped F k p k k ≠ 0 := by
    rw [swapped, Equiv.swap_apply_left]
    exact pivot
  have rows : Square.Denotes (s.factors.swap k p) (swapped F k p) := by
    intro i j
    have row := congrArg (fun row : Vector Extended m => row[j]) (get_swap_eq s.factors k p i)
    exact row.trans (done.entries _ j)
  refine ⟨?_, ?_, ?_, ?_⟩
  · intro i j
    have row : ((s.factors.swap k p).mapFinIdx fun i row below =>
        if k < ⟨i, below⟩ then eliminateRow k (s.factors.swap k p)[k] row else row)[i] =
        if k < i then eliminateRow k (s.factors.swap k p)[k] (s.factors.swap k p)[i]
        else (s.factors.swap k p)[i] := by
      rw [Fin.getElem_fin, Vector.getElem_mapFinIdx]
      rfl
    dsimp only
    rw [row]
    by_cases below : k < i
    · rw [if_pos below]
      exact eliminateRow_denotes rows pivot below j
    · rw [if_neg below, eliminated, if_neg below]
      exact rows i j
  · intro i j same
    have moved : s.order.get (Equiv.swap k p i) = s.order.get (Equiv.swap k p j) := by
      rw [← get_swap_eq, ← get_swap_eq]
      exact same
    exact (Equiv.swap k p).injective (done.order moved)
  · intro t early
    have value : eliminated (swapped F k p) k t t = swapped F k p t t := by
      have above : t.val < k.val + 1 := early
      exact if_neg (not_lt.mpr (Nat.le_of_lt_succ above))
    rw [value]
    rcases Nat.lt_succ_iff_lt_or_eq.mp early with less | same
    · have first : t < k := less
      rw [swapped, Equiv.swap_apply_of_ne_of_ne first.ne (first.trans_le least).ne]
      exact done.pivots t less
    · rw [Fin.ext same]
      exact pivot
  · intro i j
    rw [combined_eliminated pivot, combined_swapped least]
    have moved : (s.order.swap k p).get i = s.order.get (Equiv.swap k p i) := get_swap_eq _ _ _ _
    change A ((s.order.swap k p).get i) j = _
    rw [moved]
    exact done.product _ j

theorem eliminate_partial {tolerance : Extended} (positive : 0 < tolerance) {s next : Lu Extended m}
    {k : Fin m} (done : s.Partial A k F) (run : eliminate tolerance s k = .ok next) :
    ∃ G, next.Partial A (k + 1) G := by
  unfold eliminate at run
  dsimp only at run
  split at run
  next large =>
    cases run
    refine ⟨_, eliminateRows_partial done (pivotRow_ge s.factors k) ?_⟩
    rw [done.entries, abs_finite] at large
    exact abs_pos.mp (pos_of_le_finite positive large)
  next => cases run

theorem factorize_induct {α : Type} [Scalar α] {a : Square α m} {tolerance : α}
    (property : Nat → Lu α m → Prop) (start : property 0 ⟨a, Vector.ofFn id⟩)
    (step : ∀ {s next : Lu α m} {k : Fin m}, property k s → eliminate tolerance s k = .ok next →
      property (k + 1) next)
    {s : Lu α m} (run : factorize a tolerance = .ok s) : property m s := by
  have whole := foldlM_induct
    (fun done (s : Lu α m) => done <+: List.finRange m → property done.length s) (fun _ => start)
    (fun earlier state k next holds made inside => ?_) run
  · simpa using whole (List.prefix_refl _)
  · obtain ⟨rest, split⟩ := inside
    have here : (List.finRange m)[earlier.length]? = some k := by simp [← split]
    obtain ⟨known, same⟩ := List.getElem?_eq_some_iff.mp here
    have place : k.val = earlier.length := by simpa using congrArg Fin.val same.symm
    have before := holds ⟨[k] ++ rest, by simpa using split⟩
    rw [← place] at before
    simpa [place] using step before made

theorem start_partial {a : Square Extended m} (entries : a.Denotes A) :
    Partial A 0 ⟨a, Vector.ofFn id⟩ A := by
  have unmoved : ∀ i : Fin m, (Vector.ofFn id).get i = i := fun i => Vector.getElem_ofFn i.isLt
  refine ⟨entries, ?_, ?_, ?_⟩
  · intro i j same
    exact (unmoved i).symm.trans (same.trans (unmoved j))
  · intro t early
    cases early
  · intro i j
    rw [unmoved]
    simp [combined]

theorem factorize_partial_of {tolerance : Extended} {a : Square Extended m} (entries : a.Denotes A)
    (step : ∀ {s next : Lu Extended m} {k : Fin m} {F : Matrix (Fin m) (Fin m) ℚ},
      s.Partial A k F → eliminate tolerance s k = .ok next → ∃ G, next.Partial A (k + 1) G)
    {s : Lu Extended m} (run : factorize a tolerance = .ok s) : ∃ F, s.Partial A m F :=
  factorize_induct (fun k s => ∃ F, s.Partial A k F) ⟨A, start_partial entries⟩
    (fun ⟨_, done⟩ made => step done made) run

/-- Factors of a matrix: the unit lower triangle times the upper one, in pivot order. -/
theorem factorize_partial {tolerance : Extended} (positive : 0 < tolerance) {a : Square Extended m}
    (entries : a.Denotes A) {s : Lu Extended m} (run : factorize a tolerance = .ok s) :
    ∃ F, s.Partial A m F :=
  factorize_partial_of entries (eliminate_partial positive) run

end Elimination

section Solving

variable {A F : Matrix (Fin m) (Fin m) ℚ}

/-- Forward substitution with the unit lower triangle. -/
theorem forward_substitution {a : Square Extended m} (entries : a.Denotes F) {y : Vector Extended m}
    {Y : Fin m → ℚ} (given : Denotes y Y) :
    ∃ Z : Fin m → ℚ,
      Denotes (fill (fun z i => z.get i -
        Scalar.sum ((before i).map fun j => (a.get i).get j * z.get j)) (List.finRange m) y) Z ∧
      ∀ i, Z i = Y i - ∑ j, if j < i then F i j * Z j else 0 := by
  refine fill_finite wellFounded_lt (fill_ascending _ y) given fun z Z i initial earlier => ?_
  have products : ∀ j ∈ before i, (a.get i).get j * z.get j = finite (F i j * Z j) := by
    intro j member
    rw [earlier j (mem_before.mp member), ← mul_finite]
    exact congrArg (· * finite (Z j)) (entries i j)
  rw [initial, sum_map_finite products, sub_finite, sum_before]

/-- Back substitution with the upper triangle. -/
theorem back_substitution {a : Square Extended m} (entries : a.Denotes F)
    (pivots : ∀ i, F i i ≠ 0) {y : Vector Extended m} {Y : Fin m → ℚ} (given : Denotes y Y) :
    ∃ X : Fin m → ℚ,
      Denotes (fill (fun z i => (z.get i -
        Scalar.sum ((after i).map fun j => (a.get i).get j * z.get j)) / (a.get i).get i)
          (List.finRange m).reverse y) X ∧
      ∀ i, X i = (Y i - ∑ j, if i < j then F i j * X j else 0) / F i i := by
  refine fill_finite wellFounded_gt (fill_descending _ y) given fun z X i initial later => ?_
  have products : ∀ j ∈ after i, (a.get i).get j * z.get j = finite (F i j * X j) := by
    intro j member
    rw [later j (mem_after.mp member), ← mul_finite]
    exact congrArg (· * finite (X j)) (entries i j)
  have pivot : (a.get i).get i = finite (F i i) := entries i i
  rw [initial, sum_map_finite products, sub_finite, sum_after, pivot, div_finite _ (pivots i)]

theorem upper_row {X Z : Fin m → ℚ} {t : Fin m} (pivot : F t t ≠ 0)
    (upper : X t = (Z t - ∑ j, if t < j then F t j * X j else 0) / F t t) :
    ∑ j, (if t ≤ j then F t j * X j else 0) = Z t := by
  have parts : ∀ j, (if t ≤ j then F t j * X j else 0) =
      (if j = t then F t t * X t else 0) + if t < j then F t j * X j else 0 := by
    intro j
    rcases lt_trichotomy t j with less | rfl | greater
    · rw [if_pos less.le, if_neg less.ne', if_pos less, zero_add]
    · rw [if_pos le_rfl, if_pos rfl, if_neg (lt_irrefl t), add_zero]
    · rw [if_neg (not_le.mpr greater), if_neg greater.ne, if_neg (not_lt.mpr greater.le), add_zero]
  rw [Finset.sum_congr rfl fun j _ => parts j, Finset.sum_add_distrib, Finset.sum_ite_eq',
    if_pos (Finset.mem_univ t)]
  nth_rewrite 1 [upper]
  rw [mul_div_cancel₀ _ pivot]
  ring

/-- The product of the triangles applies the upper one first, as far as columns are done. -/
theorem combined_row (X : Fin m → ℚ) (k : Nat) (i : Fin m) :
    ∑ j, combined F k i j * X j =
      (∑ t, if t.val < k ∧ t < i then F i t * ∑ j, (if t ≤ j then F t j * X j else 0) else 0) +
        ∑ j, if min i.val k ≤ j.val then F i j * X j else 0 := by
  have terms : ∀ j, combined F k i j * X j =
      (∑ t, if t.val < k ∧ t < i then F i t * (if t ≤ j then F t j * X j else 0) else 0) +
        if min i.val k ≤ j.val then F i j * X j else 0 := by
    intro j
    rw [combined, add_mul, Finset.sum_mul, ite_mul, zero_mul]
    congr 1
    apply Finset.sum_congr rfl
    intro t _
    by_cases earlier : t.val < k ∧ t < i
    · by_cases reached : t ≤ j
      · rw [if_pos ⟨earlier.1, earlier.2, reached⟩, if_pos earlier, if_pos reached, mul_assoc]
      · rw [if_neg fun all => reached all.2.2, if_pos earlier, if_neg reached, zero_mul, mul_zero]
    · rw [if_neg fun all => earlier ⟨all.1, all.2.1⟩, if_neg earlier, zero_mul]
  rw [Finset.sum_congr rfl fun j _ => terms j, Finset.sum_add_distrib, Finset.sum_comm]
  congr 1
  apply Finset.sum_congr rfl
  intro t _
  split
  · rw [Finset.mul_sum]
  · exact Finset.sum_const_zero

theorem solve_solves {s : Lu Extended m} (done : s.Partial A m F) {y : Vector Extended m}
    {Y : Fin m → ℚ} (given : Denotes y Y) :
    ∃ X : Fin m → ℚ, Denotes (s.solve y) X ∧ A.mulVec X = Y := by
  have permuted : Denotes (s.order.map (y[·])) fun i => Y (s.order.get i) := by
    intro i
    rw [Fin.getElem_fin, Vector.getElem_map]
    exact given _
  obtain ⟨Z, forward, lower⟩ := forward_substitution done.entries permuted
  obtain ⟨X, backward, upper⟩ :=
    back_substitution done.entries (fun i => done.pivots i i.isLt) forward
  refine ⟨X, backward, ?_⟩
  have place : ∀ i : Fin m, A.mulVec X (s.order.get i) = Y (s.order.get i) := by
    intro i
    calc A.mulVec X (s.order.get i)
        = ∑ j, A (s.order.get i) j * X j := rfl
      _ = ∑ j, combined F m i j * X j := by simp only [done.product]
      _ = (∑ t, if t < i then F i t * Z t else 0) + Z i := by
          have whole : ∀ j : Fin m, min i.val m ≤ j.val ↔ i ≤ j := fun j => by
            rw [Nat.min_eq_left i.isLt.le, Fin.le_def]
          simp only [combined_row, whole, Fin.isLt, true_and,
            fun t : Fin m => upper_row (done.pivots t t.isLt) (upper t)]
      _ = Y (s.order.get i) := by
          have solved := lower i
          linarith
  funext j
  obtain ⟨i, rfl⟩ := (Finite.injective_iff_surjective.mp done.order) j
  exact place i

theorem invert_mul {s : Lu Extended m} (done : s.Partial A m F) :
    ∃ X : Matrix (Fin m) (Fin m) ℚ, s.invert.Denotes X ∧ X * A = 1 := by
  have column : ∀ j : Fin m, ∃ X : Fin m → ℚ,
      Denotes (s.solve (unitVector j)) X ∧ A.mulVec X = fun i => if i = j then 1 else 0 := by
    intro j
    apply solve_solves done
    intro i
    rw [Fin.getElem_fin, unitVector, Vector.getElem_ofFn]
    simp only [Fin.val_inj]
    split
    · exact one_eq
    · exact zero_eq
  choose X entries solves using column
  refine ⟨fun i j => X j i, fun i j => ?_, ?_⟩
  · simp only [invert, Square.ofEntries, Fin.getElem_fin, Vector.getElem_ofFn]
    exact entries j i
  · apply mul_eq_one_comm.mp
    ext i j
    have entry := congrFun (solves j) i
    rw [Matrix.one_apply]
    exact entry

end Solving

end Lu

end ReluSolver
