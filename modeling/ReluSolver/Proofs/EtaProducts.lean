import Mathlib.LinearAlgebra.Matrix.NonsingularInverse
import Mathlib.LinearAlgebra.Matrix.RowCol
import ReluSolver.Basis.Eta
import ReluSolver.Proofs.LuFactors

/-! A chain of column exchanges multiplies its basis by eta matrices. Each of them solves
in both directions, from the first to the last for the columns and from the last to the
first for the rows, and the products that make a new column add up in any order. -/

namespace ReluSolver

open Extended Matrix

section Lanes

theorem sum_take (l : List ℚ) (n : Nat) : (l.take n).sum = ∑ k ∈ Finset.range n, l.getD k 0 := by
  induction n with
  | zero => simp
  | succ n ih =>
    rw [List.take_add_one, List.sum_append, ih, Finset.sum_range_succ,
      List.getD_eq_getElem?_getD]
    cases l[n]? with
    | none => simp
    | some value => simp

theorem sum_interleaved (p : Nat → ℚ) (n : Nat) :
    let lane j := ∑ b ∈ Finset.range n, p (8 * b + j)
    0 + (lane 0 + lane 4) + (lane 1 + lane 5) + (lane 2 + lane 6) + (lane 3 + lane 7) =
      ∑ k ∈ Finset.range (8 * n), p k := by
  intro lane
  induction n with
  | zero => simp [lane]
  | succ n ih =>
    have next : ∀ j, (∑ b ∈ Finset.range (n + 1), p (8 * b + j)) =
        (∑ b ∈ Finset.range n, p (8 * b + j)) + p (8 * n + j) := fun j =>
      Finset.sum_range_succ _ _
    simp only [lane, next, Nat.mul_succ, Finset.sum_range_succ, ← ih, add_zero]
    ring

/-- Without rounding the order of the sums does not matter. -/
theorem laneDot_eq {xs ys : Array Extended} {terms : List ℚ}
    (products : Array.zipWith (· * ·) xs ys = (terms.map finite).toArray) :
    laneDot xs ys = finite terms.sum := by
  have entry : ∀ k, (terms.map finite).toArray.getD k (finite 0) = finite (terms.getD k 0) := by
    intro k
    rw [Array.getD_eq_getD_getElem?, List.getElem?_toArray, List.getElem?_map,
      List.getD_eq_getElem?_getD]
    cases terms[k]? <;> rfl
  have lane : ∀ n j : Nat, (List.range n).foldl (fun total b =>
      total + (terms.map finite).toArray.getD (8 * b + j) (finite 0)) (finite 0) =
        finite (∑ b ∈ Finset.range n, terms.getD (8 * b + j) 0) := by
    intro n j
    induction n with
    | zero => simp
    | succ n ih =>
      rw [List.range_succ, List.foldl_append, ih, Finset.sum_range_succ, List.foldl_cons,
        List.foldl_nil, entry, add_finite]
  have joined := sum_interleaved (fun k => terms.getD k 0) (terms.length / 8)
  have rest := List.sum_take_add_sum_drop terms (8 * (terms.length / 8))
  dsimp only at joined
  unfold laneDot
  simp only [products, lane, zero_eq, add_finite, List.size_toArray, List.length_map, joined,
    ← List.map_drop, foldl_add_finite, ← sum_take, rest]

theorem laneDot_finite {m : Nat} {xs ys : Vector Extended m} {X Y : Fin m → ℚ}
    (first : Denotes xs X) (second : Denotes ys Y) :
    laneDot xs.toArray ys.toArray = finite (X ⬝ᵥ Y) := by
  have products : Array.zipWith (· * ·) xs.toArray ys.toArray =
      ((List.ofFn fun i => X i * Y i).map finite).toArray := by
    refine Array.ext (by simp) fun i inside _ => ?_
    have known : i < m := by simpa using inside
    have left : xs[i] = finite (X ⟨i, known⟩) := first ⟨i, known⟩
    have right : ys[i] = finite (Y ⟨i, known⟩) := second ⟨i, known⟩
    simp [left, right]
  rw [laneDot_eq products, List.sum_ofFn]
  rfl

end Lanes

namespace Eta

variable {m : Nat} {e : Eta Extended m}

def entry (e : Eta Extended m) (i : Fin m) : ℚ := (e.column.get i).toRat

/-- The identity with its pivot column replaced. -/
def matrix (e : Eta Extended m) : Matrix (Fin m) (Fin m) ℚ :=
  (1 : Matrix (Fin m) (Fin m) ℚ).updateCol e.pivot e.entry

/-- The column is rational, and its pivot is not zero. -/
structure Regular (e : Eta Extended m) : Prop where
  column : Denotes e.column e.entry
  pivot : e.entry e.pivot ≠ 0

theorem make_spec {p : Nat} {column : Vector Extended m} {tolerance : Extended} {d : Fin m → ℚ}
    (entries : Denotes column d) (made : make p column tolerance = .ok e) :
    Denotes e.column e.entry ∧ tolerance ≤ finite |e.entry e.pivot| ∧
      ∃ known : p < m, e.matrix = (1 : Matrix _ _ ℚ).updateCol ⟨p, known⟩ d := by
  unfold make at made
  split at made
  next known =>
    split at made
    next large =>
      obtain rfl := Except.ok.inj made
      have same : entry ⟨⟨p, known⟩, column⟩ = d := funext fun i => congrArg toRat (entries i)
      have pivot : column[p] = finite (d ⟨p, known⟩) := entries ⟨p, known⟩
      rw [pivot, abs_finite] at large
      refine ⟨fun i => ?_, ?_, known, by rw [matrix, same]⟩
      · rw [same]
        exact entries i
      · rw [same]
        exact large
    next => cases made
  next => cases made

theorem make_regular {p : Nat} {column : Vector Extended m} {tolerance : Extended} {d : Fin m → ℚ}
    (positive : 0 < tolerance) (entries : Denotes column d)
    (made : make p column tolerance = .ok e) : e.Regular := by
  obtain ⟨column, large, -⟩ := make_spec entries made
  exact ⟨column, abs_pos.mp (Lu.pos_of_le_finite positive large)⟩

theorem regular_of_isUnit (column : Denotes e.column e.entry) (unit : IsUnit e.matrix) :
    e.Regular := by
  refine ⟨column, ?_⟩
  have determinant : e.matrix.det = e.entry e.pivot := by
    rw [matrix, ← cramer_apply, cramer_one]
    rfl
  rw [← determinant]
  exact ((isUnit_iff_isUnit_det _).mp unit).ne_zero

theorem mul_matrix (B : Matrix (Fin m) (Fin m) ℚ) :
    B * e.matrix = B.updateCol e.pivot (B *ᵥ e.entry) := by
  rw [matrix, mul_updateCol, mul_one]

theorem vecMul_matrix (v : Fin m → ℚ) :
    v ᵥ* e.matrix = Function.update v e.pivot (v ⬝ᵥ e.entry) := by
  rw [matrix, vecMul_updateCol, vecMul_one]

theorem matrix_mulVec (w : Fin m → ℚ) (i : Fin m) :
    (e.matrix *ᵥ w) i = e.entry i * w e.pivot + if i = e.pivot then 0 else w i := by
  have term : ∀ j, e.matrix i j * w j = (if j = e.pivot then e.entry i * w e.pivot else 0) +
      if j = i then (if i = e.pivot then 0 else w i) else 0 := by
    intro j
    rw [matrix, updateCol_apply, one_apply]
    by_cases pivot : j = e.pivot
    · rw [if_pos pivot, if_pos pivot, pivot]
      by_cases same : e.pivot = i
      · rw [if_pos same, if_pos same.symm, add_zero]
      · rw [if_neg same, add_zero]
    · rw [if_neg pivot, if_neg pivot, zero_add, ite_mul, one_mul, zero_mul]
      by_cases same : j = i
      · rw [if_pos same.symm, if_pos same, if_neg (same ▸ pivot), same]
      · rw [if_neg (Ne.symm same), if_neg same]
  rw [mulVec, dotProduct, Finset.sum_congr rfl fun j _ => term j, Finset.sum_add_distrib,
    Finset.sum_ite_eq', Finset.sum_ite_eq', if_pos (Finset.mem_univ _), if_pos (Finset.mem_univ _)]

section Solving

variable (regular : e.Regular)
include regular

theorem multiply_denotes {b : Square Extended m} {B : Matrix (Fin m) (Fin m) ℚ}
    (entries : b.Denotes B) : (e.multiply b).Denotes (B * e.matrix) := by
  intro i j
  have row : (e.multiply b)[i] = e.multiplyRow b[i] := by
    rw [multiply, Fin.getElem_fin, Vector.getElem_map]
    rfl
  rw [row, mul_matrix, updateCol_apply, multiplyRow, Fin.getElem_fin, Vector.getElem_set]
  by_cases here : j = e.pivot
  · rw [if_pos (congrArg Fin.val here).symm, if_pos here]
    exact laneDot_finite (entries i) regular.column
  · rw [if_neg fun same => here (Fin.ext same.symm), if_neg here]
    exact entries i j

variable {z : Vector Extended m} {Z : Fin m → ℚ} (given : Denotes z Z)
include given

theorem solve_solves : ∃ W : Fin m → ℚ, Denotes (e.solve z) W ∧ e.matrix *ᵥ W = Z := by
  have quotient : z[e.pivot] / e.pivotEntry = finite (Z e.pivot / e.entry e.pivot) := by
    rw [pivotEntry, given, regular.column, div_finite _ regular.pivot]
  refine ⟨fun i => if i = e.pivot then Z e.pivot / e.entry e.pivot
    else Z i - e.entry i * (Z e.pivot / e.entry e.pivot), fun i => ?_, ?_⟩
  · have entry : (e.solve z)[i] = e.solvedEntry (z[e.pivot] / e.pivotEntry) i z[i] := by
      rw [solve, Fin.getElem_fin, Vector.getElem_mapIdx]
      rfl
    have column : e.column[i.val]? = some (finite (e.entry i)) :=
      (Vector.getElem?_eq_getElem i.isLt).trans (congrArg some (regular.column i))
    rw [entry, quotient, solvedEntry, column, given]
    dsimp only
    by_cases here : i = e.pivot
    · rw [if_pos (congrArg Fin.val here), if_pos here]
    · rw [if_neg fun same => here (Fin.ext same), if_neg here, mul_finite, sub_finite]
  · funext i
    rw [matrix_mulVec, if_pos rfl]
    by_cases here : i = e.pivot
    · rw [if_pos here, here, mul_div_cancel₀ _ regular.pivot, add_zero]
    · rw [if_neg here, if_neg here]
      ring

theorem offPivot_finite :
    e.offPivot z.toList = finite (∑ i, if i ≠ e.pivot then Z i * e.entry i else 0) := by
  -- positions are natural numbers in the program and indices of the matrix here
  have products : ((List.zip z.toList e.column.toList).mapIdx fun i (yi, di) => (i, yi * di)) =
      (List.finRange m).map fun i => (i.val, finite (Z i * e.entry i)) := by
    refine List.ext_getElem (by simp) fun i inside _ => ?_
    have known : i < m := by simpa using inside
    have left : z[i] = finite (Z ⟨i, known⟩) := given ⟨i, known⟩
    have right : e.column[i] = finite (e.entry ⟨i, known⟩) := regular.column ⟨i, known⟩
    simp [left, right]
  unfold offPivot
  dsimp only
  rw [products, List.filter_map, List.map_map]
  refine (sum_map_finite (g := fun i => Z i * e.entry i) fun i _ => rfl).trans (congrArg finite ?_)
  rw [← List.sum_toFinset _ ((List.nodup_finRange m).filter _), List.toFinset_filter,
    List.toFinset_finRange, Finset.sum_filter]
  refine Finset.sum_congr rfl fun i _ => if_congr ?_ rfl rfl
  simp [Fin.ext_iff]

theorem solveTransposed_solves :
    ∃ V : Fin m → ℚ, Denotes (e.solveTransposed z) V ∧ V ᵥ* e.matrix = Z := by
  let rest := ∑ i, if i ≠ e.pivot then Z i * e.entry i else 0
  have quotient : (z[e.pivot] - e.offPivot z.toList) / e.pivotEntry =
      finite ((Z e.pivot - rest) / e.entry e.pivot) := by
    rw [offPivot_finite regular given, pivotEntry, given, regular.column, sub_finite,
      div_finite _ regular.pivot]
  refine ⟨Function.update Z e.pivot ((Z e.pivot - rest) / e.entry e.pivot), fun i => ?_, ?_⟩
  · rw [solveTransposed, quotient, Fin.getElem_fin, Vector.getElem_set, Function.update_apply]
    by_cases here : i = e.pivot
    · rw [if_pos (congrArg Fin.val here).symm, if_pos here]
    · rw [if_neg fun same => here (Fin.ext same.symm), if_neg here]
      exact given i
  · rw [vecMul_matrix, Function.update_idem, Function.update_eq_self_iff]
    have term : ∀ i, Function.update Z e.pivot ((Z e.pivot - rest) / e.entry e.pivot) i * e.entry i =
        (if i = e.pivot then Z e.pivot - rest else 0) +
          if i ≠ e.pivot then Z i * e.entry i else 0 := by
      intro i
      rw [Function.update_apply]
      by_cases here : i = e.pivot
      · rw [if_pos here, if_pos here, if_neg (not_not.mpr here), add_zero, here,
          div_mul_cancel₀ _ regular.pivot]
      · rw [if_neg here, if_neg here, if_pos here, zero_add]
    rw [dotProduct, Finset.sum_congr rfl fun i _ => term i, Finset.sum_add_distrib,
      Finset.sum_ite_eq', if_pos (Finset.mem_univ _)]
    exact sub_add_cancel _ _

end Solving

theorem isUnit_matrix (regular : e.Regular) : IsUnit e.matrix := by
  refine mulVec_surjective_iff_isUnit.mp fun Z => ?_
  obtain ⟨W, -, solved⟩ := solve_solves regular (denotes_ofFn Z)
  exact ⟨W, solved⟩

section Chain

variable {etas : List (Eta Extended m)}

def product (etas : List (Eta Extended m)) : Matrix (Fin m) (Fin m) ℚ := (etas.map matrix).prod

theorem product_cons (e : Eta Extended m) (rest : List (Eta Extended m)) :
    product (e :: rest) = e.matrix * product rest := List.prod_cons

theorem product_append_singleton (e : Eta Extended m) :
    product (etas ++ [e]) = product etas * e.matrix := by
  simp [product]

variable (regular : ∀ e ∈ etas, e.Regular)
include regular

theorem isUnit_product : IsUnit (product etas) := by
  refine List.prod_induction IsUnit (fun _ _ => IsUnit.mul) isUnit_one fun _ member => ?_
  obtain ⟨e, inside, rfl⟩ := List.mem_map.mp member
  exact isUnit_matrix (regular e inside)

theorem foldl_multiply_denotes {b : Square Extended m} {B : Matrix (Fin m) (Fin m) ℚ}
    (entries : b.Denotes B) :
    (etas.foldl (fun b e => e.multiply b) b).Denotes (B * product etas) := by
  induction etas generalizing b B with
  | nil => simpa [product] using entries
  | cons e rest ih =>
    rw [product_cons, ← mul_assoc]
    have first := multiply_denotes (regular e (by simp)) entries
    exact ih (fun e member => regular e (List.mem_cons_of_mem _ member)) first

variable {z : Vector Extended m} {Z : Fin m → ℚ} (given : Denotes z Z)
include given

theorem foldl_solve_solves :
    ∃ W : Fin m → ℚ, Denotes (etas.foldl (fun z e => e.solve z) z) W ∧ product etas *ᵥ W = Z := by
  induction etas generalizing z Z with
  | nil => exact ⟨Z, given, by simp [product]⟩
  | cons e rest ih =>
    obtain ⟨V, first, here⟩ := solve_solves (regular e (by simp)) given
    obtain ⟨W, last, later⟩ :=
      ih (fun e member => regular e (List.mem_cons_of_mem _ member)) first
    exact ⟨W, last, by rw [product_cons, ← mulVec_mulVec, later, here]⟩

theorem foldl_solveTransposed_solves :
    ∃ V : Fin m → ℚ, Denotes (etas.reverse.foldl (fun z e => e.solveTransposed z) z) V ∧
      V ᵥ* product etas = Z := by
  induction etas with
  | nil => exact ⟨Z, given, by simp [product]⟩
  | cons e rest ih =>
    -- the rest of the chain is undone first, and leaves the right side for `e`
    obtain ⟨U, first, later⟩ := ih fun e member => regular e (List.mem_cons_of_mem _ member)
    obtain ⟨V, last, here⟩ := solveTransposed_solves (regular e (by simp)) first
    refine ⟨V, fun i => ?_, by rw [product_cons, ← vecMul_vecMul, here, later]⟩
    rw [List.reverse_cons, List.foldl_append]
    exact last i

end Chain

end Eta

end ReluSolver
