import ReluSolver.Proofs.BasisMachine
import ReluSolver.Proofs.LuDecomposition

/-! What one eta matrix is good for. It is the identity with a column replaced, its solves
invert it from both sides, and multiplying a basis by it replaces the same column there.
Solving overwrites the vector that it reads, and no entry is read after it is written. -/

namespace ReluSolver.Eta

open Extended Matrix BasisMachine

section Loops

variable {α : Type} [Scalar α] {m : Nat}

/-- `solveArray` in place: the pivot entry of the solution is computed first, and then the entries
are overwritten one after another. -/
def solveInPlace (e : Eta α m) (z : Array α) : Except Fault (Array α) := do
  let wp := (← fetch z e.pivot) / e.pivotEntry
  return (List.range z.size).foldl (fun z i => z.modify i (e.solvedEntry wp i)) z

/-- After `n` steps the first `n` entries are overwritten, and the others are as they were. -/
theorem overwritten_getElem? {β : Type} (f : Nat → β → β) (z : Array β) (n i : Nat) :
    ((List.range n).foldl (fun z i => z.modify i (f i)) z)[i]? =
      if i < n then z[i]?.map (f i) else z[i]? := by
  induction n with
  | zero => rfl
  | succ n ih =>
    rw [List.range_succ, List.foldl_append, List.foldl_cons, List.foldl_nil, Array.getElem?_modify, ih]
    rcases lt_trichotomy i n with before | rfl | after
    · rw [if_neg before.ne', if_pos before, if_pos (before.trans n.lt_succ_self)]
    · rw [if_pos rfl, if_neg (lt_irrefl i), if_pos i.lt_succ_self]
    · rw [if_neg after.ne, if_neg after.not_gt, if_neg (by omega)]

variable (e : Eta α m)

/-- An entry depends on no other that is overwritten, so the loop solves all of them at once. -/
theorem solveInPlace_eq (z : Array α) : e.solveInPlace z = e.solveArray z := by
  have overwritten (wp : α) :
      (List.range z.size).foldl (fun z i => z.modify i (e.solvedEntry wp i)) z =
        z.mapIdx (e.solvedEntry wp) := by
    refine Array.ext_getElem? fun i => ?_
    rw [overwritten_getElem?, Array.getElem?_mapIdx]
    split
    next => rfl
    next outside => rw [Array.getElem?_eq_none (not_lt.mp outside), Option.map_none]
  simp only [solveInPlace, solveArray, overwritten]

theorem fetch_toArray {β : Type} (p : Fin m) (z : Vector β m) : fetch z.toArray p = .ok (z.get p) := by
  rw [fetch, Array.getElem?_eq_getElem (p.isLt.trans_eq z.size_toArray.symm)]
  rfl

theorem solveArray_toArray (z : Vector α m) : e.solveArray z.toArray = .ok (e.solve z).toArray := by
  rw [solveArray, fetch_toArray]
  rfl

theorem solveTransposedArray_toArray (y : Vector α m) :
    e.solveTransposedArray y.toArray = .ok (e.solveTransposed y).toArray := by
  have inside : e.pivot.val < y.toArray.size := e.pivot.isLt.trans_eq y.size_toArray.symm
  rw [solveTransposedArray, fetch_toArray, solveTransposed, Vector.toArray_set]
  exact congrArg Except.ok (dif_pos inside)

theorem multiplyRows_toArray (b : Square α m) :
    e.multiplyRows (b.map Vector.toArray).toArray =
      .ok ((e.multiply b).map Vector.toArray).toArray := by
  have nonempty : ¬ (b.map Vector.toArray).toArray.isEmpty = true := by
    simpa using e.pivot.pos.ne'
  have row (r : Vector α m) : (if h : r.toArray.size = m then
      pure (e.multiplyRow ⟨r.toArray, h⟩).toArray else throw .indexOutOfRange) =
        (pure (e.multiplyRow r).toArray : Except Fault (Array α)) := dif_pos r.size_toArray
  rw [multiplyRows, if_neg nonempty, Vector.toArray_map, Vector.toArray_map, multiply,
    Vector.toArray_map, Array.map_map]
  simp only [Array.mapM_map, Function.comp_def, row, Array.mapM_pure]
  rfl

end Loops

section Products

variable {m : Nat} {e : Eta Extended m}

/-- `B` is multiplied to `C`, whether the number and lengths of its rows are known or checked. -/
def Multiplies (e : Eta Extended m) (B C : Matrix (Fin m) (Fin m) ℚ) : Prop :=
  (e.multiply (Lu.exactly B)).Denotes C ∧ e.multiplyRows (rowsOf B) = .ok (rowsOf C)

/-- An eta matrix solves for one matrix from both sides, and multiplies by it. -/
structure Computes (e : Eta Extended m) (E : Matrix (Fin m) (Fin m) ℚ) : Prop where
  solve : ∀ z : Fin m → ℚ, ∃ w : Fin m → ℚ,
    Denotes (e.solve (Vector.ofFn fun i => finite (z i))) w ∧
    e.solveArray (Array.ofFn fun i => finite (z i)) = .ok (Array.ofFn fun i => finite (w i)) ∧
    ∀ x, E *ᵥ x = z ↔ x = w
  solveTransposed : ∀ y : Fin m → ℚ, ∃ v : Fin m → ℚ,
    Denotes (e.solveTransposed (Vector.ofFn fun i => finite (y i))) v ∧
    e.solveTransposedArray (Array.ofFn fun i => finite (y i)) =
      .ok (Array.ofFn fun i => finite (v i)) ∧
    ∀ x, x ᵥ* E = y ↔ x = v
  multiply : ∀ B, e.Multiplies B (B * E)

theorem Regular.computes (regular : e.Regular) : e.Computes e.matrix where
  solve := by
    intro z
    have given := denotes_ofFn z
    obtain ⟨w, values, solved⟩ := solve_solves regular given
    refine ⟨w, values, ?_, fun x =>
      (mulVec_injective_of_isUnit (isUnit_matrix regular)).eq_iff' solved⟩
    rw [← toArray_eq given, ← toArray_eq values]
    exact solveArray_toArray e _
  solveTransposed := by
    intro y
    have given := denotes_ofFn y
    obtain ⟨v, values, solved⟩ := solveTransposed_solves regular given
    refine ⟨v, values, ?_, fun x =>
      (vecMul_injective_of_isUnit (isUnit_matrix regular)).eq_iff' solved⟩
    rw [← toArray_eq given, ← toArray_eq values]
    exact solveTransposedArray_toArray e _
  multiply := by
    intro B
    have given := Lu.exactly_denotes B
    have product := multiply_denotes regular given
    refine ⟨product, ?_⟩
    rw [← rowsOf_eq given, ← rowsOf_eq product]
    exact multiplyRows_toArray e _

/-- A column that is solved for in the basis turns into the one that it was solved for. -/
theorem mul_matrix_exchange {B : Matrix (Fin m) (Fin m) ℚ} (unit : IsUnit B) {a : Fin m → ℚ}
    (solved : e.entry = B⁻¹ *ᵥ a) : B * e.matrix = B.updateCol e.pivot a := by
  rw [mul_matrix, solved, mulVec_mulVec, mul_nonsing_inv B ((isUnit_iff_isUnit_det B).mp unit),
    one_mulVec]

/-- An eta matrix is made with any tolerance that its pivot entry reaches. It computes the identity
with the column replaced, and replaces a column of a basis by the one that its own was solved for. -/
theorem replaces_column (p : Fin m) {d : Fin m → ℚ} (nonzero : d p ≠ 0) :
    let e : Eta Extended m := ⟨p, Vector.ofFn fun i => finite (d i)⟩
    (∀ tolerance, make p e.column tolerance =
        if tolerance ≤ finite |d p| then .ok e else .error (.singular p)) ∧
      (∀ z, e.solveInPlace z = e.solveArray z) ∧
      e.Computes ((1 : Matrix (Fin m) (Fin m) ℚ).updateCol p d) ∧
      ∀ (B : Matrix (Fin m) (Fin m) ℚ) (a : Fin m → ℚ), IsUnit B → d = B⁻¹ *ᵥ a →
        e.Multiplies B (B.updateCol p a) := by
  intro e
  have entries : Denotes e.column d := denotes_ofFn d
  have entry : e.entry = d := funext fun i => congrArg toRat (entries i)
  have regular : e.Regular := by
    refine ⟨?_, ?_⟩ <;> rw [entry]
    · exact entries
    · exact nonzero
  have computes := regular.computes
  refine ⟨fun tolerance => ?_, solveInPlace_eq e, ?_, fun B a unit solved => ?_⟩
  · have pivot : e.column[p] = finite (d p) := entries p
    rw [← abs_finite, ← pivot]
    exact dif_pos p.isLt
  · rwa [matrix, entry] at computes
  · rw [← mul_matrix_exchange unit (entry.trans solved)]
    exact computes.multiply B

/-- The pivot is in the middle of the column, and the basis is not triangular. -/
theorem replaces_column_middle :
    let d : Fin 3 → ℚ := ![2, 4, -1]
    let e : Eta Extended 3 := ⟨1, Vector.ofFn fun i => finite (d i)⟩
    let B : Matrix (Fin 3) (Fin 3) ℚ := !![1, 2, 0; 0, 1, 3; 2, 0, 1]
    d 1 ≠ 0 ∧ make 1 e.column (1 / 1000) = .ok e ∧
      e.Computes ((1 : Matrix (Fin 3) (Fin 3) ℚ).updateCol 1 d) ∧
      e.solveInPlace #[3, 8, 1] = .ok #[-1, 2, 3] ∧
      e.solveTransposedArray #[3, 8, 1] = .ok #[3, 3 / 4, 1] ∧
      e.Multiplies B (B.updateCol 1 ![10, 1, 3]) := by
  intro d e B
  have nonzero : d 1 ≠ 0 := by decide +kernel
  obtain ⟨made, inPlace, computes, exchange⟩ := replaces_column 1 nonzero
  have reached : (1 / 1000 : Extended) ≤ finite |d 1| := by decide +kernel
  have unit : IsUnit B.det := by
    rw [det_fin_three]
    exact IsUnit.mk0 _ (by decide +kernel)
  have product : B *ᵥ d = ![10, 1, 3] := by decide +kernel
  have solved : d = B⁻¹ *ᵥ ![10, 1, 3] := by
    rw [← product, mulVec_mulVec, nonsing_inv_mul B unit, one_mulVec]
  refine ⟨nonzero, (made _).trans (if_pos reached), computes, (inPlace _).trans ?_, ?_,
    exchange B _ ((isUnit_iff_isUnit_det B).mpr unit) solved⟩
  · decide +kernel
  · decide +kernel

end Products

end ReluSolver.Eta
