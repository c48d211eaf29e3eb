import Mathlib.LinearAlgebra.Matrix.ToLinearEquiv
import ReluSolver.Proofs.LuFactors

/-! Pivots of an elimination. Each is a largest entry of what is left of its column, so it is zero
only if nothing is left of the column, and then the matrix is singular. For an invertible
matrix it does not matter how small a pivot may be. -/

namespace ReluSolver.Lu

open Extended Matrix

variable {m : Nat} {A F : Matrix (Fin m) (Fin m) ℚ} {s : Lu Extended m} {k : Fin m}

theorem pivotRow_largest {a : Square Extended m} (entries : a.Denotes F) {i : Fin m} (below : k ≤ i) :
    |F i k| ≤ |F (pivotRow a k) k| := by
  have smaller : ∀ i j : Fin m, Scalar.abs a[i][k] < Scalar.abs a[j][k] ↔ |F i k| < |F j k| := by
    intro i j
    rw [entries, entries, abs_finite, abs_finite, lt_finite]
  have each : ∀ (l : List (Fin m)) (best : Fin m), ∀ i ∈ best :: l, |F i k| ≤
      |F (l.foldl (fun best i => if Scalar.abs (a[best][k]) < Scalar.abs (a[i][k]) then i else best)
        best) k| := by
    intro l
    induction l with
    | nil => simp
    | cons next rest ih =>
      intro best i member
      rw [List.foldl_cons]
      have top := ih (if Scalar.abs (a[best][k]) < Scalar.abs (a[next][k]) then next else best)
      have greatest := top _ List.mem_cons_self
      rcases List.mem_cons.mp member with rfl | member
      · refine le_trans ?_ greatest
        split
        next less => exact ((smaller _ _).mp less).le
        next => exact le_rfl
      · rcases List.mem_cons.mp member with rfl | later
        · refine le_trans ?_ greatest
          split
          next => exact le_rfl
          next more => exact not_lt.mp fun less => more ((smaller _ _).mpr less)
        · exact top i (List.mem_cons_of_mem _ later)
  refine each _ k i ?_
  rcases below.eq_or_lt with rfl | greater
  · simp
  · simp [greater]

/-- The columns up to one of which nothing is left depend on each other. -/
theorem Partial.exists_kernel (done : s.Partial A k F) (nothing : ∀ i, k ≤ i → F i k = 0) :
    ∃ x ≠ 0, A *ᵥ x = 0 := by
  let upper : Matrix (Fin m) (Fin m) ℚ := fun t j =>
    if t < k then if t ≤ j then F t j else 0 else if t = k then 0 else if t = j then 1 else 0
  have singular : upper.det = 0 := det_eq_zero_of_row_eq_zero k fun j => by simp [upper]
  obtain ⟨x, nonzero, kernel⟩ := exists_mulVec_eq_zero_iff.mpr singular
  have finished : ∀ t < k, ∑ j, (if t ≤ j then F t j * x j else 0) = 0 := by
    intro t before
    have row := congrFun kernel t
    simpa [upper, mulVec, dotProduct, before] using row
  have beyond : ∀ t, k < t → x t = 0 := by
    intro t after
    have row := congrFun kernel t
    simpa [upper, mulVec, dotProduct, after.not_gt, after.ne'] using row
  refine ⟨x, nonzero, funext fun j => ?_⟩
  obtain ⟨i, rfl⟩ := Finite.injective_iff_surjective.mp done.order j
  have last : ∑ j, (if min i.val k.val ≤ j.val then F i j * x j else 0) = 0 := by
    rcases lt_or_ge i k with before | after
    · rw [Nat.min_eq_left (show i.val ≤ k.val from before.le)]
      exact finished i before
    · rw [Nat.min_eq_right (show k.val ≤ i.val from after)]
      apply Finset.sum_eq_zero
      intro j _
      split
      next reached =>
        rcases (show k ≤ j from reached).eq_or_lt with rfl | greater
        · rw [nothing i after, zero_mul]
        · rw [beyond j greater, mul_zero]
      next => rfl
  calc (A *ᵥ x) (s.order.get i)
      = ∑ j, A (s.order.get i) j * x j := rfl
    _ = ∑ j, combined F k i j * x j := by simp only [done.product]
    _ = 0 := by
        rw [combined_row, last, add_zero]
        apply Finset.sum_eq_zero
        intro t _
        split
        next early => rw [finished t early.1, mul_zero]
        next => rfl

theorem Partial.pivot_ne_zero (regular : IsUnit A) (done : s.Partial A k F) :
    F (pivotRow s.factors k) k ≠ 0 := by
  intro zero
  have nothing : ∀ i, k ≤ i → F i k = 0 := by
    intro i below
    have small := pivotRow_largest done.entries below
    rwa [zero, abs_zero, abs_nonpos_iff] at small
  obtain ⟨x, nonzero, kernel⟩ := done.exists_kernel nothing
  exact nonzero (mulVec_injective_of_isUnit regular (kernel.trans (mulVec_zero A).symm))

/-- An invertible matrix is factorized whatever the pivot tolerance is, if at all. -/
theorem factorize_regular {tolerance : Extended} (regular : IsUnit A) {a : Square Extended m}
    (entries : a.Denotes A) (run : factorize a tolerance = .ok s) : ∃ F, s.Partial A m F := by
  refine factorize_partial_of entries (fun {s next k F} done step => ?_) run
  unfold eliminate at step
  dsimp only at step
  split at step
  next =>
    cases step
    exact ⟨_, eliminateRows_partial done (pivotRow_ge s.factors k) (done.pivot_ne_zero regular)⟩
  next => cases step

end ReluSolver.Lu
