import ReluSolver.Proofs.CrashConsistency
import ReluSolver.Proofs.EquationTerms
import ReluSolver.Proofs.InPlaceChanges
import ReluSolver.Proofs.LuFactors
import ReluSolver.Proofs.PropagationSoundness
import ReluSolver.Search.DepthFirst

/-! The rows that a search deduces from besides the equations: combinations of the
basis equations by the rows of the inverse. Each one follows from the equations, up to
the terms that are left out because their coefficients count as zero. -/

namespace ReluSolver

open Extended

namespace Equation

def rate (e : Equation Extended) (v : Nat) : ℚ := (e.coefficientOf v).toRat

theorem coefficientOf_cons {α : Type} [Scalar α] (a : Addend α) (rest : List (Addend α)) (scalar : α)
    (v : Nat) : coefficientOf ⟨a :: rest, scalar⟩ v =
      if a.var = v then a.coefficient else coefficientOf ⟨rest, scalar⟩ v := by
  unfold coefficientOf
  by_cases same : a.var = v
  · rw [if_pos same, List.find?_cons_of_pos (by simpa using same)]
  · rw [if_neg same, List.find?_cons_of_neg (by simpa using same)]

theorem WellFormed.coefficientOf_eq {e : Equation Extended} (formed : e.WellFormed) (v : Nat) :
    e.coefficientOf v = finite (e.rate v) := by
  have shape : ∃ r, e.coefficientOf v = finite r := by
    unfold coefficientOf
    split
    next a found =>
      obtain ⟨r, -, same⟩ := formed.coefficients a (List.mem_of_find?_eq_some found)
      exact ⟨r, same⟩
    next => exact ⟨0, zero_eq⟩
  obtain ⟨r, same⟩ := shape
  rw [rate, same, toRat_finite]

theorem WellFormed.left_eq_sum {e : Equation Extended} (formed : e.WellFormed) {n : Nat}
    (known : ∀ a ∈ e.addends, a.var < n) (x : Variable → ℚ) :
    e.left x = ∑ v ∈ Finset.range n, e.rate v * x v := by
  obtain ⟨addends, scalar⟩ := e
  induction addends with
  | nil => simp [left, rate, coefficientOf]
  | cons a rest ih =>
    have apart : a.var ∉ rest.map (·.var) := (List.nodup_cons.mp formed.distinct).1
    have absent : rate ⟨rest, scalar⟩ a.var = 0 := by
      have none : rest.find? (·.var == a.var) = none := by
        rw [List.find?_eq_none]
        intro b member same
        exact apart (List.mem_map.mpr ⟨b, member, by simpa using same⟩)
      simp [rate, coefficientOf, none]
    have term : ∀ v, rate ⟨a :: rest, scalar⟩ v * x v =
        rate ⟨rest, scalar⟩ v * x v + if v = a.var then a.coefficient.toRat * x a.var else 0 := by
      intro v
      unfold rate
      rw [coefficientOf_cons]
      by_cases same : v = a.var
      · rw [same, if_pos rfl, if_pos rfl]
        change _ = rate ⟨rest, scalar⟩ a.var * _ + _
        rw [absent, zero_mul, zero_add]
      · rw [if_neg (Ne.symm same), if_neg same, add_zero]
    rw [left_cons, ih formed.tail fun b member => known b (List.mem_cons_of_mem _ member),
      Finset.sum_congr rfl fun v _ => term v, Finset.sum_add_distrib, Finset.sum_ite_eq',
      if_pos (Finset.mem_range.mpr (known a (by simp)))]
    ring

end Equation

theorem dot_finite {m : Nat} {xs ys : List Extended} {X Y : Fin m → ℚ}
    (first : xs = (List.finRange m).map fun j => finite (X j))
    (second : ys = (List.finRange m).map fun j => finite (Y j)) :
    Scalar.dot xs ys = finite (∑ j, X j * Y j) := by
  have zipped : List.zipWith (· * ·) xs ys = (List.finRange m).map fun j => finite (X j * Y j) := by
    rw [first, second, List.zipWith_map, List.zipWith_self]
    rfl
  rw [Scalar.dot, zipped, sum_map_finite fun _ _ => rfl, sum_finRange]

theorem Square.ofFlat_toFlat {m : Nat} (a : Square Extended m) : ofFlat m a.toFlat = .ok a := by
  have entry : ∀ (rows : List (List Extended)) (i j : Nat), (∀ row ∈ rows, row.length = m) → j < m →
      rows.flatten[i * m + j]? = rows[i]?.bind (·[j]?) := by
    intro rows
    induction rows with
    | nil => simp
    | cons row rest ih =>
      intro i j lengths inside
      have length := lengths row (by simp)
      rw [List.flatten_cons]
      cases i with
      | zero =>
        rw [zero_mul, zero_add, List.getElem?_append_left (by omega)]
        rfl
      | succ i =>
        rw [List.getElem?_append_right (by rw [length, Nat.succ_mul]; omega), length,
          show (i + 1) * m + j - m = i * m + j by rw [Nat.succ_mul]; omega,
          ih i j (fun other member => lengths other (List.mem_cons_of_mem _ member)) inside]
        rfl
  have flat : a.toFlat.toList = (a.toList.map Vector.toList).flatten := by
    simp [toFlat, Array.toList_flatten, Function.comp_def]
    rfl
  have lengths : ∀ row ∈ a.toList.map Vector.toList, row.length = m := by
    intro row member
    obtain ⟨v, -, rfl⟩ := List.mem_map.mp member
    simp
  have size : a.toFlat.size = m * m := by
    rw [← Array.length_toList, flat, List.length_flatten, List.map_congr_left lengths,
      List.map_const', List.length_map, Vector.length_toList, List.sum_replicate, smul_eq_mul]
  have cell : ∀ i j : Fin m, a.toFlat.getD (i * m + j) 0 = a[i][j] := by
    intro i j
    have found := entry _ i j lengths j.isLt
    rw [← flat, Array.getElem?_toList] at found
    rw [Array.getD_eq_getD_getElem?, found]
    simp
  rw [ofFlat, if_neg (by omega)]
  congr 1
  apply Vector.ext
  intro i first
  apply Vector.ext
  intro j second
  simp only [ofEntries, Vector.getElem_ofFn]
  exact cell ⟨i, first⟩ ⟨j, second⟩

namespace CrashBasis

variable {b : CrashBasis Extended}

/-- The coefficients of the basic variables in the basis equations. -/
def rates (b : CrashBasis Extended) : Matrix (Fin b.dimension) (Fin b.dimension) ℚ :=
  fun i j => (b.rows[i]).equation.rate (b.rows[j]).basic

theorem matrix_denotes (formed : ∀ row ∈ b.rows, row.equation.WellFormed) :
    b.matrix.Denotes b.rates := by
  intro i j
  simp only [matrix, Square.ofEntries, Fin.getElem_fin, Vector.getElem_ofFn]
  exact (formed _ (List.getElem_mem _)).coefficientOf_eq _

/-- A factorization of the basis gives an inverse of its matrix. -/
theorem inverseRows_spec {kind : FactorKind} {config : FactorConfig Extended}
    (positive : 0 < config.pivotTolerance) (formed : ∀ row ∈ b.rows, row.equation.WellFormed)
    {f : Factorization Extended}
    (run : (Factorization.create kind b.dimension config).setBasis b.matrix.toFlat = .ok f) :
    f.isExplicit = true ∧ ∀ size inverse, f.inverseRows size = .ok inverse →
      ∃ (X : Square Extended b.dimension) (M : Matrix (Fin b.dimension) (Fin b.dimension) ℚ),
        inverse = (X.map Vector.toArray).toArray ∧ X.Denotes M ∧ M * b.rates = 1 := by
  have inverts : ∀ {s : Lu Extended b.dimension},
      Lu.factorize b.matrix config.pivotTolerance = .ok s →
      ∃ M : Matrix (Fin b.dimension) (Fin b.dimension) ℚ,
        s.invert.Denotes M ∧ M * b.rates = 1 := by
    intro s factorized
    obtain ⟨F, done⟩ := Lu.factorize_partial positive (matrix_denotes formed) factorized
    exact Lu.invert_mul done
  obtain ⟨basis, read, run⟩ := bind_eq_ok.mp run
  have same := read.symm.trans (Square.ofFlat_toFlat b.matrix)
  obtain rfl : basis = b.matrix := Except.ok.inj same
  obtain ⟨factored, set, same⟩ := bind_eq_ok.mp run
  obtain rfl := Except.ok.inj same
  cases kind with
  | forrestTomlin =>
    obtain ⟨eta, refactorized, rfl⟩ := map_eq_ok.mp set
    obtain ⟨lu, factorized, same⟩ :=
      bind_eq_ok.mp ((EtaFile.refactorizeAs_eq _ _).symm.trans refactorized)
    obtain rfl := Except.ok.inj same
    refine ⟨rfl, fun size inverse inverted => ?_⟩
    obtain ⟨X, computed, same⟩ := bind_eq_ok.mp inverted
    obtain rfl := Except.ok.inj same
    obtain ⟨M, entries, inverts⟩ := inverts factorized
    obtain ⟨-, -, same⟩ := bind_eq_ok.mp computed
    obtain rfl := Except.ok.inj same
    exact ⟨_, M, rfl, entries, inverts⟩
  | denseLu =>
    obtain ⟨dense, replaced, rfl⟩ := map_eq_ok.mp set
    obtain ⟨lu, factorized, same⟩ :=
      bind_eq_ok.mp ((DenseBasis.replaceBasis_eq _ _).symm.trans replaced)
    obtain rfl := Except.ok.inj same
    refine ⟨rfl, fun size inverse inverted => ?_⟩
    obtain ⟨X, computed, same⟩ := bind_eq_ok.mp inverted
    obtain rfl := Except.ok.inj same
    obtain ⟨M, entries, inverts⟩ := inverts factorized
    obtain ⟨-, -, computed⟩ := bind_eq_ok.mp computed
    obtain ⟨solver, own, same⟩ := bind_eq_ok.mp computed
    obtain rfl := Except.ok.inj same
    obtain rfl := Except.ok.inj own
    exact ⟨_, M, rfl, entries, inverts⟩

variable {q : Query Extended}

/-- What the crash basis of a query promises. -/
structure Within (b : CrashBasis Extended) (q : Query Extended) : Prop where
  formed : ∀ row ∈ b.rows, row.equation.WellFormed
  known : ∀ row ∈ b.rows, ∀ a ∈ row.equation.addends, a.var < q.size
  basic : ∀ row ∈ b.rows, row.basic < q.size
  nonBasic : b.nonBasic = (List.range q.size).filter fun v => !b.rows.any (·.basic == v)

theorem compute_within (formed : ∀ e ∈ q.equations, e.WellFormed) {t : Tolerance Extended}
    (computed : compute q t = .ok b) : b.Within q := by
  obtain ⟨rows, nonBasic⟩ := compute_spec computed
  exact ⟨fun row member => formed _ (rows row member).1,
    fun row member => q.equations_known _ (rows row member).1,
    fun row member => (rows row member).2, nonBasic⟩

theorem basic_injective {M : Matrix (Fin b.dimension) (Fin b.dimension) ℚ} (inverse : M * b.rates = 1)
    {j k : Fin b.dimension} (same : (b.rows[j]).basic = (b.rows[k]).basic) : j = k := by
  by_contra other
  have columns : ∀ i, b.rates i j = b.rates i k := by
    intro i
    unfold rates
    rw [same]
  have entries : (M * b.rates) j j = (M * b.rates) j k := by
    rw [Matrix.mul_apply, Matrix.mul_apply]
    exact Finset.sum_congr rfl fun i _ => by rw [columns i]
  rw [inverse, Matrix.one_apply_eq, Matrix.one_apply_ne other] at entries
  exact one_ne_zero entries

theorem sum_basic_add_nonBasic (within : b.Within q)
    {M : Matrix (Fin b.dimension) (Fin b.dimension) ℚ} (inverse : M * b.rates = 1) (f : Nat → ℚ) :
    ∑ v ∈ Finset.range q.size, f v =
      ∑ k : Fin b.dimension, f (b.rows[k]).basic + (b.nonBasic.map f).sum := by
  have others : (b.nonBasic.map f).sum =
      ∑ v ∈ (Finset.range q.size).filter (fun v => ¬ b.rows.any (·.basic == v) = true), f v := by
    rw [within.nonBasic, ← List.sum_toFinset _ (List.nodup_range.filter _), List.toFinset_filter,
      List.toFinset_range]
    simp
  have basics : ∑ k : Fin b.dimension, f (b.rows[k]).basic =
      ∑ v ∈ (Finset.range q.size).filter (fun v => b.rows.any (·.basic == v) = true), f v := by
    refine Finset.sum_bij (fun k _ => (b.rows[k]).basic) ?_ ?_ ?_ fun _ _ => rfl
    · intro k _
      have member : b.rows[k] ∈ b.rows := List.getElem_mem _
      exact Finset.mem_filter.mpr ⟨Finset.mem_range.mpr (within.basic _ member),
        List.any_eq_true.mpr ⟨_, member, by simp⟩⟩
    · intro j _ k _ same
      exact basic_injective inverse same
    · intro v member
      obtain ⟨row, found, same⟩ := List.any_eq_true.mp (Finset.mem_filter.mp member).2
      obtain ⟨k, inside, rfl⟩ := List.mem_iff_getElem.mp found
      exact ⟨⟨k, inside⟩, Finset.mem_univ _, by simpa using same⟩
  rw [others, basics, Finset.sum_filter_add_sum_filter_not]

section Combination

variable {t : Tolerance Extended} {basic : Variable} {inverseRow : List Extended}
  {Y : Fin b.dimension → ℚ}

theorem rows_map_eq {f : BasisRow Extended → Extended} :
    b.rows.map f = (List.finRange b.dimension).map fun j => f (b.rows[j]) := by
  apply List.ext_getElem
  · simp
  · intro i first second
    simp

/-- The coefficients that count as zero. -/
def leftOut (epsilon : ℚ) (rate : Variable → ℚ) (v : Variable) : ℚ :=
  if |rate v| ≤ epsilon then rate v else 0

theorem leftOut_le {epsilon : ℚ} (nonneg : 0 ≤ epsilon) (rate : Variable → ℚ) (v : Variable) :
    |leftOut epsilon rate v| ≤ epsilon := by
  unfold leftOut
  split
  next small => exact small
  next => rwa [abs_zero]

theorem leftOut_zero (rate : Variable → ℚ) (v : Variable) : leftOut 0 rate v = 0 := by
  unfold leftOut
  split
  next small => exact abs_nonpos_iff.mp small
  next => rfl

theorem addTerms_spec {epsilon : ℚ} (same : t.epsilon = finite epsilon) {rate : Variable → ℚ}
    (columns : ∀ v, Scalar.dot (b.column v) inverseRow = finite (rate v)) (vars : List Variable)
    {e : Equation Extended} (formed : e.WellFormed) :
    let last := vars.foldl (fun e x =>
      let coefficient := Scalar.dot (b.column x) inverseRow
      if t.isZero coefficient then e else e.add coefficient x) e
    last.WellFormed ∧ last.right = e.right ∧
      (∀ x, last.left x + (vars.map fun v => leftOut epsilon rate v * x v).sum =
        e.left x + (vars.map fun v => rate v * x v).sum) ∧
      ∀ v, last.Mentions v → e.Mentions v ∨ v ∈ vars ∧ epsilon < |rate v| := by
  induction vars generalizing e with
  | nil => exact ⟨formed, rfl, fun x => rfl, fun v said => .inl said⟩
  | cons v rest ih =>
    dsimp only at ih ⊢
    rw [List.foldl_cons, columns v]
    split
    next zero =>
      rw [Tolerance.isZero_finite same] at zero
      obtain ⟨kept, right, left, mentions⟩ := ih formed
      refine ⟨kept, right, fun x => ?_, fun w said => ?_⟩
      · rw [List.map_cons, List.sum_cons, List.map_cons, List.sum_cons, leftOut, if_pos zero,
          add_left_comm, left, add_left_comm]
      · exact (mentions w said).imp_right fun ⟨later, large⟩ => ⟨List.mem_cons_of_mem _ later, large⟩
    next apart =>
      rw [Tolerance.isZero_finite same] at apart
      obtain ⟨kept, right, left, mentions⟩ := ih (formed.add (rate v) v)
      refine ⟨kept, right, fun x => ?_, fun w said => ?_⟩
      · rw [List.map_cons, List.sum_cons, List.map_cons, List.sum_cons, leftOut, if_neg apart,
          zero_mul, zero_add, left, formed.left_add, add_assoc]
      · rcases mentions w said with old | ⟨later, large⟩
        · rcases Equation.add_mentions old with rfl | earlier
          · exact .inr ⟨by simp, not_le.mp apart⟩
          · exact .inl earlier
        · exact .inr ⟨List.mem_cons_of_mem _ later, large⟩

/-- The coefficients of a combination of the basis equations. -/
def combinedRate (b : CrashBasis Extended) (Y : Fin b.dimension → ℚ) (v : Variable) : ℚ :=
  ∑ j, (b.rows[j]).equation.rate v * Y j

theorem combination_spec (within : b.Within q) {epsilon : ℚ} (same : t.epsilon = finite epsilon)
    (basic : Variable)
    (entries : inverseRow = (List.finRange b.dimension).map fun j => finite (Y j)) :
    (b.combination t basic inverseRow).WellFormed ∧
      (b.combination t basic inverseRow).right =
        ∑ j, (b.rows[j]).equation.right * Y j ∧
      (∀ x, (b.combination t basic inverseRow).left x +
          (b.nonBasic.map fun v => leftOut epsilon (b.combinedRate Y) v * x v).sum =
        x basic + (b.nonBasic.map fun v => b.combinedRate Y v * x v).sum) ∧
      ∀ v, (b.combination t basic inverseRow).Mentions v →
        v = basic ∨ v ∈ b.nonBasic ∧ epsilon < |b.combinedRate Y v| := by
  have columns : ∀ v, Scalar.dot (b.column v) inverseRow = finite (b.combinedRate Y v) := by
    intro v
    refine dot_finite ?_ entries
    rw [column, rows_map_eq]
    exact List.map_congr_left fun j _ =>
      (within.formed _ (List.getElem_mem _)).coefficientOf_eq v
  have scalars : Scalar.dot b.scalars inverseRow =
      finite (∑ j, (b.rows[j]).equation.right * Y j) := by
    refine dot_finite ?_ entries
    rw [CrashBasis.scalars, rows_map_eq]
    exact List.map_congr_left fun j _ => (within.formed _ (List.getElem_mem _)).scalar_eq
  have start := Equation.constant_wellFormed (∑ j, (b.rows[j]).equation.right * Y j)
  obtain ⟨formed, right, left, mentions⟩ :=
    addTerms_spec same columns b.nonBasic (start.add 1 basic)
  rw [combination, scalars, one_eq]
  refine ⟨formed, right, fun x => ?_, fun v said => ?_⟩
  · rw [left, start.left_add, one_mul]
    simp [Equation.constant, Equation.left]
  · refine (mentions v said).imp_left fun old => ?_
    rcases Equation.add_mentions old with same | ⟨a, member, -⟩
    · exact same
    · cases member

/-- The combinations of the basis equations by the rows of a matrix. -/
def combinedBy (b : CrashBasis Extended) (t : Tolerance Extended)
    (M : Matrix (Fin b.dimension) (Fin b.dimension) ℚ) : List (Equation Extended) :=
  (List.finRange b.dimension).map fun i =>
    b.combination t (b.rows[i]).basic ((List.finRange b.dimension).map fun j => finite (M i j))

end Combination

section Inverse

variable {M : Matrix (Fin b.dimension) (Fin b.dimension) ℚ} (inverse : M * b.rates = 1)
include inverse

theorem combinedRate_basic (i k : Fin b.dimension) :
    b.combinedRate (M i) (b.rows[k]).basic = if i = k then 1 else 0 := by
  have entry : (M * b.rates) i k = if i = k then 1 else 0 := by
    rw [inverse, Matrix.one_apply]
  rw [← entry, Matrix.mul_apply]
  exact Finset.sum_congr rfl fun j _ => mul_comm _ _

/-- A row of the inverse combines the basis equations to one that their solutions satisfy, once what
was left out is added again. -/
theorem combination_add_leftOut (within : b.Within q) {t : Tolerance Extended} {epsilon : ℚ}
    (same : t.epsilon = finite epsilon) {x : Variable → ℚ}
    (hold : ∀ row ∈ b.rows, row.equation.Holds x) (i : Fin b.dimension)
    {inverseRow : List Extended}
    (entries : inverseRow = (List.finRange b.dimension).map fun j => finite (M i j)) :
    (b.combination t (b.rows[i]).basic inverseRow).left x +
        (b.nonBasic.map fun v => leftOut epsilon (b.combinedRate (M i)) v * x v).sum =
      (b.combination t (b.rows[i]).basic inverseRow).right := by
  obtain ⟨formed, right, left, -⟩ := combination_spec within same (b.rows[i]).basic entries
  rw [left, right]
  have equations : ∀ j : Fin b.dimension,
      ∑ v ∈ Finset.range q.size, (b.rows[j]).equation.rate v * x v = (b.rows[j]).equation.right := by
    intro j
    have inside : b.rows[j] ∈ b.rows := List.getElem_mem _
    rw [← (within.formed _ inside).left_eq_sum (within.known _ inside)]
    exact (within.formed _ inside).holds_iff.mp (hold _ inside)
  have total : ∑ v ∈ Finset.range q.size, b.combinedRate (M i) v * x v =
      ∑ j, (b.rows[j]).equation.right * M i j := by
    simp only [combinedRate, Finset.sum_mul]
    rw [Finset.sum_comm]
    apply Finset.sum_congr rfl
    intro j _
    rw [← equations j, Finset.sum_mul]
    apply Finset.sum_congr rfl
    intro v _
    ring
  have basics : ∑ k : Fin b.dimension, b.combinedRate (M i) (b.rows[k]).basic * x (b.rows[k]).basic =
      x (b.rows[i]).basic := by
    simp only [combinedRate_basic inverse, ite_mul, one_mul, zero_mul, Finset.sum_ite_eq,
      Finset.mem_univ, if_true]
  rw [← total, sum_basic_add_nonBasic within inverse, basics]

theorem combination_holds (within : b.Within q) {t : Tolerance Extended} (precise : t.epsilon = 0)
    {x : Variable → ℚ} (hold : ∀ row ∈ b.rows, row.equation.Holds x) (i : Fin b.dimension)
    {inverseRow : List Extended}
    (entries : inverseRow = (List.finRange b.dimension).map fun j => finite (M i j)) :
    (b.combination t (b.rows[i]).basic inverseRow).Holds x := by
  have same : t.epsilon = finite 0 := by simpa using precise
  have formed := (combination_spec within same (b.rows[i]).basic entries).1
  have complete := combination_add_leftOut inverse within same hold i entries
  rw [formed.holds_iff, ← complete]
  simp [leftOut_zero]

end Inverse

theorem mem_combinations {t : Tolerance Extended} {X : Square Extended b.dimension}
    {row : Equation Extended} (member : row ∈ List.zipWith (fun v (row : Array Extended) =>
      b.combination t v row.toList) b.basic (X.map Vector.toArray).toArray.toList) :
    ∃ i : Fin b.dimension, row = b.combination t (b.rows[i]).basic (X[i]).toList := by
  obtain ⟨i, inside, rfl⟩ := List.mem_iff_getElem.mp member
  have small : i < b.dimension := by
    simpa [basic] using inside
  refine ⟨⟨i, small⟩, ?_⟩
  simp only [List.getElem_zipWith, basic, List.getElem_map]
  simp
  rfl

/-- The rows of the inverse give rows that every solution of the basis equations satisfies. -/
theorem combinations_satisfied (within : b.Within q) {t : Tolerance Extended}
    (precise : t.epsilon = 0) {X : Square Extended b.dimension}
    {M : Matrix (Fin b.dimension) (Fin b.dimension) ℚ} (entries : X.Denotes M)
    (inverse : M * b.rates = 1) {x : Variable → ℚ} (hold : ∀ row ∈ b.rows, row.equation.Holds x) :
    Effort.Satisfied q.size x (List.zipWith (fun v (row : Array Extended) =>
      b.combination t v row.toList) b.basic (X.map Vector.toArray).toArray.toList) := by
  have listed : ∀ i : Fin b.dimension,
      (X[i]).toList = (List.finRange b.dimension).map fun j => finite (M i j) := by
    intro i
    apply List.ext_getElem
    · simp
    · intro j first second
      have small : j < b.dimension := by simpa using first
      simpa using entries i ⟨j, small⟩
  have same : t.epsilon = finite 0 := by simpa using precise
  constructor
  · intro row member
    obtain ⟨i, rfl⟩ := mem_combinations member
    exact (combination_spec within same _ (listed i)).1
  · intro row member a inside
    obtain ⟨i, rfl⟩ := mem_combinations member
    rcases (combination_spec within same _ (listed i)).2.2.2 a.var ⟨a, inside, rfl⟩ with
      basic | ⟨other, -⟩
    · rw [basic]
      exact within.basic _ (List.getElem_mem _)
    · rw [within.nonBasic] at other
      exact List.mem_range.mp (List.mem_filter.mp other).1
  · intro row member
    obtain ⟨i, rfl⟩ := mem_combinations member
    exact combination_holds inverse within precise hold i (listed i)

end CrashBasis

theorem DepthFirst.factorize_satisfied {c : SearchConfig Extended}
    (positive : 0 < c.factor.pivotTolerance) {t : Tolerance Extended} (precise : t.epsilon = 0)
    {q : Query Extended} (formed : ∀ e ∈ q.equations, e.WellFormed) {b : CrashBasis Extended}
    (computed : CrashBasis.compute q t = .ok b) {f : Option (Factorization Extended)}
    {derived : List (Equation Extended)} (run : factorize c t b = .ok (f, derived))
    {x : Variable → ℚ} (hold : ∀ e ∈ q.equations, e.Holds x) :
    Effort.Satisfied q.size x derived := by
  have within := CrashBasis.compute_within formed computed
  have empty : Effort.Satisfied q.size x [] := ⟨by simp, by simp, by simp⟩
  unfold factorize at run
  split at run
  · cases run
    exact empty
  · split at run
    · cases run
      exact empty
    · cases run
    next f set =>
      obtain ⟨explicit, inverted⟩ := CrashBasis.inverseRows_spec positive within.formed set
      rw [if_pos explicit] at run
      obtain ⟨rows', listed, same⟩ := bind_eq_ok.mp run
      cases same
      obtain ⟨inverse, computedRows, same⟩ := bind_eq_ok.mp listed
      cases same
      obtain ⟨X, M, rfl, entries, one⟩ := inverted _ _ computedRows
      exact CrashBasis.combinations_satisfied within precise entries one
        fun row member => hold _ ((CrashBasis.compute_spec computed).1 row member).1

end ReluSolver
