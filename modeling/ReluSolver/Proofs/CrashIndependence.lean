import Mathlib.LinearAlgebra.Matrix.Block
import ReluSolver.Proofs.DerivedRows

/-! The equations that a crash basis keeps are independent. Each reduced row has a one in its
pivot column and later ones have a zero there, so the columns of the basic variables are
those of an invertible matrix. -/

namespace ReluSolver.CrashBasis

open Extended Matrix

variable {n : Nat}

def Reduced.entry (p : Reduced Extended n) (j : Fin n) : ℚ := (p.entries.get j).toRat

/-- All entries are rational, and the pivot is one. -/
structure Reduced.Scaled (p : Reduced Extended n) : Prop where
  entries : Denotes p.entries p.entry
  pivot : p.entry p.column = 1

/-- Eliminating by rows in echelon form clears all their pivot columns. -/
theorem foldl_eliminate_denotes {pivots : List (Reduced Extended n)}
    (scaled : ∀ p ∈ pivots, p.Scaled)
    (ordered : pivots.Pairwise fun p later => later.entry p.column = 0)
    {row : Vector Extended n × Extended} {R : Fin n → ℚ} (entries : Denotes row.1 R) :
    ∃ S, Denotes (pivots.foldl eliminate row).1 S ∧ (∀ p ∈ pivots, S p.column = 0) ∧
      (∀ j, (∀ p ∈ pivots, p.entry j = 0) → S j = R j) ∧
      ∀ x, (∀ p ∈ pivots, rowValue p.entry x = 0) → rowValue S x = rowValue R x := by
  induction pivots generalizing row R with
  | nil => exact ⟨R, entries, by simp, fun _ _ => rfl, fun _ _ => rfl⟩
  | cons p rest ih =>
    obtain ⟨above, ordered⟩ := List.pairwise_cons.mp ordered
    have first := scaled p (by simp)
    obtain ⟨S, denotes, cleared, kept, value⟩ :=
      ih (fun o member => scaled o (by simp [member])) ordered
        (eliminate_denotes entries first.entries first.pivot)
    refine ⟨S, denotes, ?_, fun j zero => ?_, fun x zero => ?_⟩
    · rw [List.forall_mem_cons]
      refine ⟨?_, cleared⟩
      rw [kept p.column above, first.pivot, mul_one, sub_self]
    · rw [kept j fun o member => zero o (by simp [member]), zero p (by simp), mul_zero, sub_zero]
    · rw [value x fun o member => zero o (by simp [member]), rowValue_sub_mul, zero p (by simp),
        mul_zero, sub_zero]

variable {q : Query Extended}

/-- Reduced rows in echelon form, each next to the equation that it comes from. An assignment that
takes the left sides of the equations to zero takes the reduced rows to zero. -/
structure Echelon (kept : List (Reduced Extended q.size × BasisRow Extended)) : Prop where
  scaled : ∀ p ∈ kept, p.1.Scaled
  basic : ∀ p ∈ kept, p.2.basic = p.1.column
  ordered : kept.Pairwise fun p later => later.1.entry p.1.column = 0
  vanishes : ∀ x, (∀ p ∈ kept, p.2.equation.left x = 0) → ∀ p ∈ kept, rowValue p.1.entry x = 0

variable {kept : List (Reduced Extended q.size × BasisRow Extended)}

theorem Echelon.extend (echelon : Echelon kept) {e : Equation Extended} (formed : e.WellFormed)
    (known : ∀ a ∈ e.addends, a.var < q.size) {row : Vector Extended q.size × Extended}
    (reduced : (kept.map (·.1)).foldl eliminate (denseRow q.size e, e.scalar) = row)
    {column : Fin q.size} (apart : row.1.get column ≠ finite 0) (index : Nat) :
    Echelon (kept ++ [(normalize row.1 row.2 column, ⟨index, e, column⟩)]) := by
  obtain ⟨R, dense, left⟩ := denseRow_denotes formed known
  have scaled : ∀ p ∈ kept.map (·.1), p.Scaled := by simpa using echelon.scaled
  have start : Denotes (denseRow q.size e, e.scalar).1 R := dense
  obtain ⟨S, denotes, cleared, -, value⟩ :=
    foldl_eliminate_denotes scaled (List.pairwise_map.mpr echelon.ordered) start
  rw [reduced] at denotes
  have nonzero : S column ≠ 0 := by
    intro zero
    exact apart ((denotes column).trans (by rw [zero]))
  have entries := normalize_denotes denotes nonzero row.2
  have entry : (normalize row.1 row.2 column).entry = fun j => S j / S column :=
    funext fun j => congrArg toRat (entries j)
  have last : (normalize row.1 row.2 column).Scaled :=
    ⟨entry ▸ entries, by rw [entry]; exact div_self nonzero⟩
  have zero : ∀ p ∈ kept, (normalize row.1 row.2 column).entry p.1.column = 0 := by
    intro p member
    rw [entry]
    dsimp only
    rw [cleared p.1 (List.mem_map_of_mem member), zero_div]
  constructor
  · exact List.forall_mem_append.mpr ⟨echelon.scaled, by simpa using last⟩
  · exact List.forall_mem_append.mpr ⟨echelon.basic, by simp [normalize]⟩
  · exact List.pairwise_append.mpr ⟨echelon.ordered, List.pairwise_singleton _ _, by simpa using zero⟩
  · intro x vanish
    obtain ⟨before, here⟩ := List.forall_mem_append.mp vanish
    have earlier := echelon.vanishes x before
    refine List.forall_mem_append.mpr ⟨earlier, ?_⟩
    rw [List.forall_mem_singleton] at here ⊢
    have total : rowValue S x = 0 := by
      rw [value x (by simpa using earlier), left]
      exact here
    rw [entry, ← zero_div (S column), ← total]
    simp only [rowValue, Finset.sum_div]
    apply Finset.sum_congr rfl
    intro j _
    ring

theorem select_echelon {t : Tolerance Extended} {epsilon : ℚ} (same : t.epsilon = finite epsilon)
    (nonneg : 0 ≤ epsilon) {equations : List (Equation Extended)}
    (formed : ∀ e ∈ equations, e.WellFormed)
    (known : ∀ e ∈ equations, ∀ a ∈ e.addends, a.var < q.size) (echelon : Echelon kept) {index : Nat}
    {rows : List (BasisRow Extended)} (run : select q t kept index equations = .ok rows) :
    ∃ last : List (Reduced Extended q.size × BasisRow Extended),
      Echelon last ∧ rows = last.map (·.2) := by
  induction equations generalizing kept index with
  | nil => exact ⟨kept, echelon, (Except.ok.inj run).symm⟩
  | cons e rest ih =>
    have formedRest : ∀ o ∈ rest, o.WellFormed := fun o member => formed o (by simp [member])
    have knownRest : ∀ o ∈ rest, ∀ a ∈ o.addends, a.var < q.size :=
      fun o member => known o (by simp [member])
    rw [select] at run
    dsimp only at run
    split at run
    next column chosen =>
      exact ih formedRest knownRest (echelon.extend (formed e (by simp)) (known e (by simp)) rfl
        (pivotColumn?_ne_zero same nonneg chosen) index) run
    next =>
      split at run
      · exact ih formedRest knownRest echelon run
      · cases run

/-- The assignment that has the entries of `y` at the given columns. -/
def spread {m n : Nat} (columns : Fin m → Fin n) (y : Fin m → ℚ) (v : Variable) : ℚ :=
  ∑ k, if (columns k : Nat) = v then y k else 0

theorem rowValue_spread {m n : Nat} (R : Fin n → ℚ) (columns : Fin m → Fin n) (y : Fin m → ℚ) :
    rowValue R (spread columns y) = ∑ k, R (columns k) * y k := by
  simp only [rowValue, spread, Finset.mul_sum]
  rw [Finset.sum_comm]
  apply Finset.sum_congr rfl
  intro k _
  simp only [← Fin.ext_iff, mul_ite, mul_zero, Finset.sum_ite_eq, Finset.mem_univ, if_true]

theorem spread_self {m n : Nat} {places : Fin m → Fin n} (distinct : Function.Injective places)
    (y : Fin m → ℚ) (k : Fin m) : spread places y (places k) = y k := by
  have term : ∀ j, (if (places j : Nat) = places k then y j else 0) = if j = k then y j else 0 := by
    intro j
    simp only [← Fin.ext_iff, distinct.eq_iff]
  rw [spread, Finset.sum_congr rfl fun j _ => term j, Finset.sum_ite_eq', if_pos (Finset.mem_univ k)]

theorem spread_absent {m n : Nat} {places : Fin m → Fin n} {v : Variable}
    (absent : ∀ k, (places k : Nat) ≠ v) (y : Fin m → ℚ) : spread places y v = 0 :=
  Finset.sum_eq_zero fun k _ => if_neg (absent k)

/-- Values of the basic variables that take the equations to zero, the others being zero, are zero. -/
theorem Echelon.spread_eq_zero (echelon : Echelon kept) {y : Fin kept.length → ℚ}
    (kernel : ∀ p ∈ kept, p.2.equation.left (spread (fun k => (kept.get k).1.column) y) = 0) : y = 0 := by
  -- The pivot columns in the order of the rows: ones on the diagonal and zeros below it.
  let triangle : Matrix (Fin kept.length) (Fin kept.length) ℚ :=
    fun i k => (kept.get i).1.entry (kept.get k).1.column
  have upper : triangle.IsUpperTriangular := by
    intro i k before
    exact List.pairwise_iff_get.mp echelon.ordered k i before
  have one : triangle.det = 1 := by
    rw [det_of_isUpperTriangular upper]
    exact Finset.prod_eq_one fun i _ => (echelon.scaled _ (List.get_mem kept i)).pivot
  have unit : IsUnit triangle := (isUnit_iff_isUnit_det _).mpr (by rw [one]; exact isUnit_one)
  apply mulVec_injective_of_isUnit unit
  rw [mulVec_zero]
  funext i
  have zero := echelon.vanishes _ kernel _ (List.get_mem kept i)
  rwa [rowValue_spread] at zero

theorem Echelon.isUnit_rates {b : CrashBasis Extended} (within : b.Within q) (echelon : Echelon kept)
    (rows : b.rows = kept.map (·.2)) : IsUnit b.rates := by
  have sizes : kept.length = b.dimension := by rw [dimension, rows, List.length_map]
  have row : ∀ k : Fin kept.length, b.rows[Fin.cast sizes k] = (kept.get k).2 := by
    intro k
    simp [rows]
  refine mulVec_injective_iff_isUnit.mp ((injective_iff_map_eq_zero (mulVecLin _)).mpr fun y kernel => ?_)
  have zero : (fun k => y (Fin.cast sizes k)) = 0 := by
    apply echelon.spread_eq_zero
    intro p member
    obtain ⟨i, rfl⟩ := List.get_of_mem member
    have inside : (kept.get i).2 ∈ b.rows := rows ▸ List.mem_map_of_mem member
    rw [(within.formed _ inside).left_eq_sum (within.known _ inside), Finset.sum_range]
    refine (rowValue_spread _ _ _).trans (Eq.trans ?_ (congrFun kernel (Fin.cast sizes i)))
    refine Fintype.sum_equiv (finCongr sizes) _ _ fun k => ?_
    have basic := echelon.basic _ (List.get_mem kept k)
    simp only [rates, finCongr_apply, row, basic]
  funext k
  exact congrFun zero (Fin.cast sizes.symm k)

/-- The matrix of a crash basis is invertible. -/
theorem compute_isUnit {b : CrashBasis Extended} {t : Tolerance Extended} {epsilon : ℚ}
    (same : t.epsilon = finite epsilon) (nonneg : 0 ≤ epsilon)
    (formed : ∀ e ∈ q.equations, e.WellFormed) (computed : compute q t = .ok b) : IsUnit b.rates := by
  have within := compute_within formed computed
  obtain ⟨rows, selected, made⟩ := bind_eq_ok.mp computed
  have empty : Echelon ([] : List (Reduced Extended q.size × BasisRow Extended)) :=
    ⟨by simp, by simp, List.Pairwise.nil, by simp⟩
  obtain ⟨last, echelon, rfl⟩ := select_echelon same nonneg formed q.equations_known empty selected
  obtain rfl := Except.ok.inj made
  exact echelon.isUnit_rates within rfl

section Columns

variable {b : CrashBasis Extended} {basic : Array Variable}

def columns (b : CrashBasis Extended) (basic : Array Variable) :
    Matrix (Fin b.dimension) (Fin b.dimension) ℚ :=
  fun i k => (b.rows.get i).equation.rate (basic.getD k 0)

theorem columns_basic : b.columns b.basic.toArray = b.rates := by
  ext i k
  simp [columns, rates, basic]

theorem columns_exchanged (size : basic.size = b.dimension) (k : Fin b.dimension) (x : Variable) :
    b.columns (basic.setIfInBounds k x) =
      (b.columns basic).updateCol k fun i => (b.rows[i]).equation.rate x := by
  ext i j
  rw [updateCol_apply, columns, Array.getD_eq_getD_getElem?, Array.getElem?_setIfInBounds]
  by_cases same : j = k
  · rw [if_pos same, if_pos (congrArg Fin.val same.symm), if_pos (Nat.lt_of_lt_of_eq k.isLt size.symm)]
    rfl
  · rw [if_neg same, if_neg fun equal => same (Fin.ext equal.symm), columns,
      Array.getD_eq_getD_getElem?]

theorem nodup_of_columns (size : basic.size = b.dimension) (regular : IsUnit (b.columns basic)) :
    basic.toList.Nodup := by
  refine List.pairwise_iff_getElem.mpr fun i j first second before same => ?_
  have unit := (isUnit_iff_isUnit_det _).mp regular
  refine unit.ne_zero (det_zero_of_column_eq (i := ⟨i, size ▸ first⟩) (j := ⟨j, size ▸ second⟩) ?_ ?_)
  · exact fun equal => before.ne (congrArg Fin.val equal)
  · intro row
    have entry : basic.getD i 0 = basic.getD j 0 := by
      rw [Array.length_toList] at first second
      simpa [Array.getD_eq_getD_getElem?, first, second] using same
    rw [columns, columns, entry]

end Columns

end ReluSolver.CrashBasis
