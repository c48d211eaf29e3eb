import Mathlib.Algebra.Order.Field.Basic
import ReluSolver.Proofs.BasisViews

/-! What factorizing gives. Rows are moved together with their multipliers, and no multiplier
exceeds one, since it is a quotient by a largest entry of its column. The triangles
multiply to the matrix in pivot order, so a matrix that has factors is invertible. -/

namespace ReluSolver.Lu

open Extended Matrix

variable {m : Nat} {A F : Matrix (Fin m) (Fin m) ℚ}

section Triangles

def lower (F : Matrix (Fin m) (Fin m) ℚ) : Matrix (Fin m) (Fin m) ℚ :=
  fun i j => if j < i then F i j else if j = i then 1 else 0

def upper (F : Matrix (Fin m) (Fin m) ℚ) : Matrix (Fin m) (Fin m) ℚ :=
  fun i j => if i ≤ j then F i j else 0

/-- With all columns done, a row is put together by the product of the triangles. -/
theorem lower_mul_upper (F : Matrix (Fin m) (Fin m) ℚ) : lower F * upper F = combined F m := by
  ext i j
  have term : ∀ t, lower F i t * upper F t j =
      (if t.val < m ∧ t < i ∧ t ≤ j then F i t * F t j else 0) +
        if t = i then (if i ≤ j then F i j else 0) else 0 := by
    intro t
    unfold lower upper
    rcases lt_trichotomy t i with before | rfl | after
    · rw [if_pos before, if_neg before.ne, add_zero]
      by_cases reached : t ≤ j
      · rw [if_pos reached, if_pos ⟨t.isLt, before, reached⟩]
      · rw [if_neg reached, if_neg fun all => reached all.2.2, mul_zero]
    · simp only [lt_irrefl, false_and, and_false, if_false, if_true, one_mul, zero_add]
    · have beyond : ¬(t.val < m ∧ t < i ∧ t ≤ j) := fun all => after.not_gt all.2.1
      rw [if_neg after.not_gt, if_neg after.ne', if_neg after.ne', if_neg beyond, zero_mul, add_zero]
  rw [mul_apply, Finset.sum_congr rfl fun t _ => term t, Finset.sum_add_distrib, Finset.sum_ite_eq',
    if_pos (Finset.mem_univ i), combined, Nat.min_eq_left i.isLt.le]
  rfl

end Triangles

section Multipliers

/-- The first `k` columns are eliminated, by multipliers that do not exceed one. -/
structure Reduced (A : Matrix (Fin m) (Fin m) ℚ) (k : Nat) (s : Lu Extended m)
    (F : Matrix (Fin m) (Fin m) ℚ) : Prop extends Partial A k s F where
  small : ∀ i j : Fin m, j.val < k → j < i → |F i j| ≤ 1

theorem swap_keeps (property : Fin m → Prop) {k p i : Fin m} (first : property k)
    (second : property p) (own : property i) : property (Equiv.swap k p i) := by
  rw [Equiv.swap_apply_def]
  split
  · exact second
  · split
    · exact first
    · exact own

theorem small_eliminated {k p : Fin m} (least : k ≤ p)
    (largest : ∀ i, k ≤ i → |F i k| ≤ |F p k|)
    (small : ∀ i j : Fin m, j < k → j < i → |F i j| ≤ 1) (i j : Fin m) (early : j ≤ k)
    (below : j < i) : |eliminated (swapped F k p) k i j| ≤ 1 := by
  have kept : j < k → |swapped F k p i j| ≤ 1 := fun before =>
    small _ j before (swap_keeps (j < ·) before (before.trans_le least) below)
  unfold eliminated
  by_cases after : k < i
  · rw [if_pos after]
    rcases early.lt_or_eq with before | rfl
    · rw [if_neg before.ne, if_neg before.not_gt]
      exact kept before
    · have top : swapped F j p j j = F p j := by
        rw [swapped, Equiv.swap_apply_left]
      rw [if_pos rfl, top, abs_div]
      exact div_le_one_of_le₀
        (largest _ (swap_keeps (j ≤ ·) le_rfl least after.le)) (abs_nonneg _)
  · rw [if_neg after]
    exact kept (below.trans_le (not_lt.mp after))

theorem eliminate_reduced {tolerance : Extended} (positive : 0 < tolerance) {s next : Lu Extended m}
    {k : Fin m} (done : s.Reduced A k F) (run : eliminate tolerance s k = .ok next) :
    ∃ G, next.Reduced A (k + 1) G := by
  unfold eliminate at run
  dsimp only at run
  split at run
  next large =>
    obtain rfl := Except.ok.inj run
    have least := pivotRow_ge s.factors k
    rw [done.entries, abs_finite] at large
    have pivot := abs_pos.mp (pos_of_le_finite positive large)
    refine ⟨_, eliminateRows_partial done.toPartial least pivot, fun i j early below => ?_⟩
    exact small_eliminated least (fun i => pivotRow_largest done.entries)
      (fun i j before => done.small i j before) i j (Nat.le_of_lt_succ early) below
  next => cases run

theorem factorize_reduced {tolerance : Extended} (positive : 0 < tolerance) {a : Square Extended m}
    (entries : a.Denotes A) {s : Lu Extended m} (run : factorize a tolerance = .ok s) :
    ∃ F, s.Reduced A m F :=
  factorize_induct (fun k s => ∃ F, s.Reduced A k F)
    ⟨A, start_partial entries, fun _ _ early => absurd early (Nat.not_lt_zero _)⟩
    (fun ⟨_, done⟩ made => eliminate_reduced positive done made) run

end Multipliers

theorem factorize_error {α : Type} [Scalar α] {a : Square α m} {tolerance : α} {cause : FactorError}
    (run : factorize a tolerance = .error cause) : ∃ column, cause = .singular column := by
  have each : ∀ (columns : List (Fin m)) (s : Lu α m),
      columns.foldlM (eliminate tolerance) s = .error cause → ∃ column, cause = .singular column := by
    intro columns
    induction columns with
    | nil => exact nofun
    | cons k rest ih =>
      intro s run
      rw [List.foldlM_cons] at run
      rcases bind_eq_error.mp run with here | ⟨next, -, later⟩
      · unfold eliminate at here
        dsimp only at here
        split at here
        · cases here
        · exact ⟨k, (Except.error.inj here).symm⟩
      · exact ih next later
  exact each _ _ run

def exactly (A : Matrix (Fin m) (Fin m) ℚ) : Square Extended m :=
  Square.ofEntries fun i j => finite (A i j)

theorem exactly_denotes (A : Matrix (Fin m) (Fin m) ℚ) : (exactly A).Denotes A := by
  intro i j
  simp [exactly, Square.ofEntries]

/-- What factors of a matrix are, and what they are good for. -/
structure Decomposes (s : Lu Extended m) (A : Matrix (Fin m) (Fin m) ℚ) : Prop where
  order : Function.Bijective s.order.get
  triangles : ∃ F, s.factors.Denotes F ∧ (∀ i j, j < i → |F i j| ≤ 1) ∧
    A.submatrix s.order.get id = lower F * upper F
  solve : ∀ y : Fin m → ℚ, ∃ x, Denotes (s.solve (Vector.ofFn fun i => finite (y i))) x ∧
    ∀ v, A *ᵥ v = y ↔ v = x
  solveTransposed : ∀ y : Fin m → ℚ, ∃ x,
    Denotes (s.solveTransposed (Vector.ofFn fun i => finite (y i))) x ∧ ∀ v, v ᵥ* A = y ↔ v = x
  invert : ∃ M, s.invert.Denotes M ∧ M * A = 1 ∧ A * M = 1

theorem Reduced.decomposes {s : Lu Extended m} (done : s.Reduced A m F) : s.Decomposes A where
  order := Finite.injective_iff_bijective.mp done.order
  triangles := by
    refine ⟨F, done.entries, fun i j => done.small i j j.isLt, ?_⟩
    rw [lower_mul_upper]
    ext i j
    exact done.product i j
  solve := by
    intro y
    obtain ⟨x, values, solved⟩ := solve_solves done.toPartial (denotes_ofFn y)
    refine ⟨x, values, fun v => ⟨fun other => ?_, fun same => same ▸ solved⟩⟩
    exact mulVec_injective_of_isUnit done.isUnit (other.trans solved.symm)
  solveTransposed := by
    intro y
    obtain ⟨x, values, solved⟩ := solveTransposed_solves done.toPartial (denotes_ofFn y)
    refine ⟨x, values, fun v => ⟨fun other => ?_, fun same => same ▸ solved⟩⟩
    exact vecMul_injective_of_isUnit done.isUnit (other.trans solved.symm)
  invert := by
    obtain ⟨M, entries, inverse⟩ := invert_mul done.toPartial
    exact ⟨M, entries, inverse, mul_eq_one_comm.mp inverse⟩

/-- A matrix is factorized correctly if at all, and a singular one never. -/
theorem factorize_decomposes {tolerance : Extended} (positive : 0 < tolerance)
    (A : Matrix (Fin m) (Fin m) ℚ) :
    (∀ s, factorize (exactly A) tolerance = .ok s → s.Decomposes A) ∧
      (A.det = 0 → ∃ column, factorize (exactly A) tolerance = .error (.singular column)) := by
  constructor
  · intro s run
    obtain ⟨F, done⟩ := factorize_reduced positive (exactly_denotes A) run
    exact done.decomposes
  · intro singular
    cases run : factorize (exactly A) tolerance with
    | ok s =>
      obtain ⟨F, done⟩ := factorize_reduced positive (exactly_denotes A) run
      exact absurd singular ((isUnit_iff_isUnit_det A).mp done.isUnit).ne_zero
    | error cause =>
      obtain ⟨column, rfl⟩ := factorize_error run
      exact ⟨column, rfl⟩

deriving instance DecidableEq for Lu

/-- The second pivot moves a row past one that is left alone, together with the multipliers of
both. -/
theorem factorize_decomposes_reordered :
    let A : Matrix (Fin 3) (Fin 3) ℚ := !![0, 2, 1; 1, 1, 0; 2, 2, 3]
    let B : Matrix (Fin 2) (Fin 2) ℚ := !![1, 2; 2, 4]
    let tolerance : Extended := 1 / 1000
    (∃ s, factorize (exactly A) tolerance = .ok s ∧ s.order = #v[2, 0, 1] ∧
        s.factors = exactly !![2, 2, 3; 0, 2, 1; 1 / 2, 0, -3 / 2] ∧ s.Decomposes A) ∧
      B.det = 0 ∧ ∃ column, factorize (exactly B) tolerance = .error (.singular column) := by
  intro A B tolerance
  have positive : 0 < tolerance := by decide +kernel
  let s : Lu Extended 3 := ⟨exactly !![2, 2, 3; 0, 2, 1; 1 / 2, 0, -3 / 2], #v[2, 0, 1]⟩
  have run : factorize (exactly A) tolerance = .ok s := by decide +kernel
  have singular : B.det = 0 := by norm_num [B, det_fin_two]
  exact ⟨⟨s, run, rfl, rfl, (factorize_decomposes positive A).1 s run⟩, singular,
    (factorize_decomposes positive B).2 singular⟩

end ReluSolver.Lu
