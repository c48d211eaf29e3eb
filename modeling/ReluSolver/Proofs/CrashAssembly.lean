import ReluSolver.Proofs.InverseRows

/-! A crash basis is a basis: equations in the order of the query with a variable each, whose
columns are independent. The tables that are filled in one entry after another say the
same as searching would, since no entry is written twice. -/

namespace ReluSolver.CrashBasis

open Extended Matrix

variable {q : Query Extended}

theorem select_ascending {t : Tolerance Extended} {equations : List (Equation Extended)}
    {kept : List (Reduced Extended q.size × BasisRow Extended)} {index : Nat}
    (ascending : (kept.map (·.2.index)).Pairwise (· < ·)) (before : ∀ p ∈ kept, p.2.index < index)
    {rows : List (BasisRow Extended)} (run : select q t kept index equations = .ok rows) :
    (rows.map (·.index)).Pairwise (· < ·) := by
  induction equations generalizing kept index with
  | nil =>
    obtain rfl := Except.ok.inj run
    simpa [Function.comp_def] using ascending
  | cons e rest ih =>
    have later : ∀ p ∈ kept, p.2.index < index + 1 := fun p member => (before p member).trans (by omega)
    rw [select] at run
    dsimp only at run
    split at run
    next column _ =>
      refine ih ?_ ?_ run
      · rw [List.map_append, List.pairwise_append]
        refine ⟨ascending, List.pairwise_singleton _ _, ?_⟩
        rw [List.forall_mem_map]
        exact fun p member i here => List.mem_singleton.mp here ▸ before p member
      · exact List.forall_mem_append.mpr ⟨later, by simp⟩
    next =>
      split at run
      · exact ih ascending later run
      · cases run

section Tables

theorem idxOf?_eq_some_of_nodup {basic : List Variable} (distinct : basic.Nodup) {x : Variable}
    {k : Nat} : basic.idxOf? x = some k ↔ basic[k]? = some x := by
  rw [List.idxOf?_eq_some_iff, List.getElem?_eq_some_iff]
  constructor
  · exact fun ⟨inside, here, _⟩ => ⟨inside, here⟩
  · rintro ⟨inside, rfl⟩
    refine ⟨inside, rfl, fun j before same => ?_⟩
    exact before.ne ((distinct.getElem_inj_iff).mp same)

theorem foldl_positions {basic : List Variable} (distinct : basic.Nodup) (start : Nat)
    (table : Array (Option Nat)) {x : Variable} (known : x < table.size) :
    ((basic.zipIdx start).foldl (fun table (x, k) => table.setIfInBounds x (some k)) table)[x]?.join =
      ((basic.idxOf? x).map (start + ·)).or table[x] := by
  induction basic generalizing start table with
  | nil => simp [known]
  | cons y rest ih =>
    obtain ⟨new, distinct⟩ := List.nodup_cons.mp distinct
    rw [List.zipIdx_cons, List.foldl_cons, ih distinct _ _ (by simpa using known), List.idxOf?_cons,
      Array.getElem_setIfInBounds known]
    by_cases same : y = x
    · subst same
      rw [List.idxOf?_eq_none_iff.mpr new, if_pos rfl, if_pos (beq_self_eq_true y)]
      rfl
    · rw [if_neg same, if_neg (by simpa using same), Option.map_map]
      congr 2
      funext k
      simp only [Function.comp_apply]
      omega

variable {b : CrashBasis Extended}

theorem size_positions (n : Nat) : (b.positions n).size = n :=
  List.foldlRecOn (motive := fun table : Array (Option Nat) => table.size = n) _ _ Array.size_replicate
    fun _ size _ _ => Array.size_setIfInBounds.trans size

theorem positions_eq (distinct : b.basic.Nodup) (known : ∀ x ∈ b.basic, x < q.size) (x : Variable) :
    (b.positions q.size)[x]?.join = b.position? x := by
  by_cases inside : x < q.size
  · rw [positions, foldl_positions distinct 0 _ (by simpa using inside)]
    simp [position?]
  · have absent : b.position? x = none := List.idxOf?_eq_none_iff.mpr fun member => inside (known x member)
    rw [absent, Array.getElem?_eq_none ((size_positions q.size).trans_le (not_lt.mp inside))]
    rfl

theorem foldl_enter {α : Type} {positions : Array (Option Nat)} {m k : Nat} {x : Variable}
    (small : k < m) (own : ∀ v, positions[v]?.join = some k ↔ v = x) {addends : List (Addend α)}
    (distinct : (addends.map (·.var)).Nodup) (row : Vector α m) :
    (addends.foldl (enter positions) row)[k] =
      ((addends.find? (·.var == x)).map (·.coefficient)).getD row[k] := by
  induction addends generalizing row with
  | nil => rfl
  | cons a rest ih =>
    obtain ⟨new, distinct⟩ := List.nodup_cons.mp distinct
    rw [List.foldl_cons, ih distinct]
    by_cases same : a.var = x
    · have absent : rest.find? (·.var == x) = none := by
        rw [List.find?_eq_none]
        intro other member equal
        exact new (List.mem_map.mpr ⟨other, member, (beq_iff_eq.mp equal).trans same.symm⟩)
      have entered : enter positions row a = row.setIfInBounds k a.coefficient := by
        rw [enter, (own a.var).mpr same]
      rw [absent, List.find?_cons_of_pos (by simpa using same), entered]
      simp
    · have other : positions[a.var]?.join ≠ some k := fun here => same ((own _).mp here)
      have kept : (enter positions row a)[k] = row[k] := by
        unfold enter
        split
        next j found => exact Vector.getElem_setIfInBounds_ne small fun here => other (here ▸ found)
        next => rfl
      rw [List.find?_cons_of_neg (by simpa using same), kept]

end Tables

/-- Equations of a query, in order, and a basic variable for each. The other variables are the
non-basic ones, and the columns of the basic ones are independent. -/
structure IsBasis (b : CrashBasis Extended) (q : Query Extended) : Prop where
  ascending : (b.rows.map (·.index)).Pairwise (· < ·)
  length : b.basic.length = b.rows.length
  distinct : b.basic.Nodup
  partition : (b.basic ++ b.nonBasic).Perm q.allVariables
  position : ∀ x k, b.position? x = some k ↔ b.basic[k]? = some x
  positions : ∀ x, (b.positions q.size)[x]?.join = b.position? x
  entries : ∀ r k : Fin b.dimension, ∃ e, q.equations[(b.rows[r]).index]? = some e ∧
    b.basic[k]? = some (b.rows[k]).basic ∧
    getElem (getElem b.matrix r r.isLt) k k.isLt = e.coefficientOf (b.rows[k]).basic
  filled : b.matrix.toList =
    b.rows.map fun row => filledRow (b.positions q.size) b.dimension row.equation
  invertible : ∃ B, b.matrix.Denotes B ∧ IsUnit B

variable {b : CrashBasis Extended}

theorem basic_nodup (regular : IsUnit b.rates) : b.basic.Nodup := by
  have independent : IsUnit (b.columns b.basic.toArray) := by rwa [columns_basic]
  exact nodup_of_columns (by simp) independent

theorem basic_partition (within : b.Within q) (distinct : b.basic.Nodup) :
    (b.basic ++ b.nonBasic).Perm q.allVariables := by
  have listed : ∀ x, x ∈ b.nonBasic ↔ x < q.size ∧ x ∉ b.basic := by
    intro x
    simp [within.nonBasic, basic]
  have apart : (b.basic ++ b.nonBasic).Nodup := by
    refine List.nodup_append'.mpr ⟨distinct, ?_, fun x first second => ((listed x).mp second).2 first⟩
    rw [within.nonBasic]
    exact List.nodup_range.filter _
  have known : ∀ x ∈ b.basic, x < q.size := List.forall_mem_map.mpr within.basic
  refine (List.perm_ext_iff_of_nodup apart List.nodup_range).mpr fun x => ?_
  rw [List.mem_append, listed, List.mem_range]
  constructor
  · rintro (member | ⟨inside, -⟩)
    · exact known x member
    · exact inside
  · intro inside
    exact (em (x ∈ b.basic)).imp_right fun other => ⟨inside, other⟩

/-- A term goes where its variable is basic, and every other place of the row is zero. -/
theorem matrix_filled (within : b.Within q) (distinct : b.basic.Nodup) :
    b.matrix.toList =
      b.rows.map fun row => filledRow (b.positions q.size) b.dimension row.equation := by
  have known : ∀ x ∈ b.basic, x < q.size := List.forall_mem_map.mpr within.basic
  apply List.ext_getElem
  · simp
  · intro i first second
    have inside : i < b.dimension := by simpa using second
    rw [List.getElem_map, Vector.getElem_toList]
    apply Vector.ext
    intro k small
    have own : ∀ v, (b.positions q.size)[v]?.join = some k ↔ v = (b.rows[k]).basic := by
      intro v
      rw [positions_eq distinct known, position?, idxOf?_eq_some_of_nodup distinct]
      simp [basic, small, eq_comm]
    rw [filledRow, foldl_enter small own (within.formed _ (List.getElem_mem inside)).distinct]
    simp only [matrix, Square.ofEntries, Vector.getElem_ofFn, Fin.getElem_fin, Equation.coefficientOf,
      Vector.getElem_replicate]
    cases (b.rows[i]).equation.addends.find? (·.var == (b.rows[k]).basic) <;> rfl

theorem compute_isBasis {t : Tolerance Extended} {epsilon : ℚ} (same : t.epsilon = finite epsilon)
    (nonneg : 0 ≤ epsilon) (formed : ∀ e ∈ q.equations, e.WellFormed)
    (computed : compute q t = .ok b) : b.IsBasis q := by
  have within := compute_within formed computed
  have regular := compute_isUnit same nonneg formed computed
  have distinct := basic_nodup regular
  have known : ∀ x ∈ b.basic, x < q.size := List.forall_mem_map.mpr within.basic
  constructor
  case ascending =>
    obtain ⟨rows, selected, made⟩ := bind_eq_ok.mp computed
    obtain rfl := Except.ok.inj made
    exact select_ascending List.Pairwise.nil (by simp) selected
  case length => exact List.length_map _
  case distinct => exact distinct
  case partition => exact basic_partition within distinct
  case position => exact fun x k => idxOf?_eq_some_of_nodup distinct
  case positions => exact positions_eq distinct known
  case entries =>
    intro r k
    refine ⟨(b.rows[r]).equation, (compute_listed computed _ (List.getElem_mem _)).1, ?_, ?_⟩
    · simp [basic]
    · simp [matrix, Square.ofEntries]
  case filled => exact matrix_filled within distinct
  case invertible => exact ⟨b.rates, matrix_denotes within.formed, regular⟩

/-- The second equation repeats the first, and the variable of the third is one that it alone has. -/
theorem compute_isBasis_redundant :
    let t : Tolerance Extended := ⟨Tolerance.defaultEpsilon⟩
    let first : Equation Extended := ⟨[⟨2, 0⟩, ⟨1, 1⟩, ⟨1, 2⟩], 3⟩
    let third : Equation Extended := ⟨[⟨1, 1⟩, ⟨-1, 2⟩, ⟨2, 3⟩], 1⟩
    let q : Query Extended := { Query.unconstrained 4 with
      equations := [first, ⟨[⟨4, 0⟩, ⟨2, 1⟩, ⟨2, 2⟩], 6⟩, third]
      inputs := [0]
      equations_known := by decide
      inputs_known := by decide }
    let b : CrashBasis Extended := ⟨[⟨0, first, 1⟩, ⟨2, third, 3⟩], [0, 2]⟩
    compute q t = .ok b ∧ b.IsBasis q := by
  intro t first third q b
  have same : t.epsilon = finite (1 / 10 ^ 9) := by decide +kernel
  have computed : compute q t = .ok b := by decide +kernel
  exact ⟨computed, compute_isBasis same (by norm_num) (by decide +kernel) computed⟩

end ReluSolver.CrashBasis
