import Mathlib.Algebra.BigOperators.Fin
import Mathlib.Algebra.BigOperators.Field
import Mathlib.Algebra.Order.BigOperators.Group.Finset
import Mathlib.Algebra.Order.Ring.Abs
import Mathlib.Tactic.FieldSimp
import Mathlib.Tactic.Linarith
import Mathlib.Tactic.NormNum
import Mathlib.Tactic.Ring
import ReluSolver.Basis.Crash
import ReluSolver.Proofs.Solutions
import ReluSolver.Proofs.Steps

/-! The crash basis of exact equations. Reducing an equation by others changes nothing
about how far an assignment that satisfies the others is from satisfying it. So what is
dropped, and what is found to contradict the rest, is off by no more than the tolerance. -/

namespace ReluSolver

open Extended

theorem firstBest?_mem {β : Type} {better : β → β → Bool} {l : List β} {x : β}
    (chosen : firstBest? better l = some x) : x ∈ l := by
  have each : ∀ (rest : List β) (best : β),
      rest.foldl (fun best y => if better y best then y else best) best = best ∨
        rest.foldl (fun best y => if better y best then y else best) best ∈ rest := by
    intro rest
    induction rest with
    | nil => exact fun _ => .inl rfl
    | cons y rest ih =>
      intro best
      rw [List.foldl_cons]
      rcases ih (if better y best then y else best) with same | member
      · rw [same]
        split
        · exact .inr (by simp)
        · exact .inl rfl
      · exact .inr (List.mem_cons_of_mem _ member)
  cases l with
  | nil => cases chosen
  | cons first rest =>
    obtain rfl := Option.some.inj chosen
    rcases each rest first with same | member
    · rw [same]
      simp
    · exact List.mem_cons_of_mem _ member

theorem firstBest?_eq_none {β : Type} {better : β → β → Bool} {l : List β} :
    firstBest? better l = none ↔ l = [] := by
  cases l <;> simp [firstBest?]

namespace CrashBasis

variable {n : Nat}

def rowValue (R : Fin n → ℚ) (x : Variable → ℚ) : ℚ := ∑ j, R j * x j

theorem denotes_set {row : Vector Extended n} {R : Fin n → ℚ} (entries : Denotes row R)
    (k : Fin n) (value : ℚ) :
    Denotes (row.set k (finite value) k.isLt) (Function.update R k value) := by
  intro j
  rw [Fin.getElem_fin, Vector.getElem_set]
  by_cases same : k = j
  · rw [if_pos (congrArg Fin.val same), ← same, Function.update_self]
  · rw [if_neg fun equal => same (Fin.ext equal), Function.update_of_ne (Ne.symm same)]
    exact entries j

theorem rowValue_update (R : Fin n → ℚ) (x : Variable → ℚ) (k : Fin n) (value : ℚ) :
    rowValue (Function.update R k value) x = rowValue R x + (value - R k) * x k := by
  unfold rowValue
  have term : ∀ j, Function.update R k value j * x j =
      R j * x j + if j = k then (value - R k) * x k else 0 := by
    intro j
    by_cases same : j = k
    · rw [same, Function.update_self, if_pos rfl]
      ring
    · rw [Function.update_of_ne same, if_neg same, add_zero]
  rw [Finset.sum_congr rfl fun j _ => term j, Finset.sum_add_distrib, Finset.sum_ite_eq',
    if_pos (Finset.mem_univ k)]

theorem denseRow_denotes {e : Equation Extended} (formed : e.WellFormed)
    (known : ∀ a ∈ e.addends, a.var < n) :
    ∃ R, Denotes (denseRow n e) R ∧ ∀ x, rowValue R x = e.left x := by
  have each : ∀ (addends : List (Addend Extended)) (row : Vector Extended n) (R : Fin n → ℚ),
      (∀ a ∈ addends, a ∈ e.addends) → Denotes row R →
      ∃ S, Denotes (addends.foldl (fun (row : Vector Extended n) a =>
          if h : a.var < n then row.set a.var (row[a.var] + a.coefficient) else row) row) S ∧
        ∀ x, rowValue S x = rowValue R x + (addends.map fun a => a.coefficient.toRat * x a.var).sum := by
    intro addends
    induction addends with
    | nil => exact fun row R _ entries => ⟨R, entries, by simp⟩
    | cons a rest ih =>
      intro row R members entries
      have member := members a (by simp)
      have inside := known a member
      let k : Fin n := ⟨a.var, inside⟩
      have added : row[a.var] + a.coefficient = finite (R k + a.coefficient.toRat) := by
        rw [show row[a.var] = finite (R k) from entries k, formed.coefficient_eq member]
        rfl
      rw [List.foldl_cons, dif_pos (known a member), added]
      obtain ⟨S, denotes, value⟩ := ih _ _ (fun b later => members b (by simp [later]))
        (denotes_set entries k (R k + a.coefficient.toRat))
      refine ⟨S, denotes, fun x => ?_⟩
      rw [value, rowValue_update, List.map_cons, List.sum_cons]
      change _ + (_ + _ - _) * x a.var + _ = _
      ring
  obtain ⟨R, denotes, value⟩ := each e.addends (Vector.replicate n 0) (fun _ => 0)
    (fun a member => member) fun j => by simp
  exact ⟨R, denotes, fun x => by rw [value, Equation.left]; simp [rowValue]⟩

/-- A reduced equation of rationals that an assignment satisfies. -/
def Reduced.Holds (p : Reduced Extended n) (x : Variable → ℚ) : Prop :=
  ∃ P c, Denotes p.entries P ∧ p.scalar = finite c ∧ P p.column = 1 ∧ rowValue P x = c

/-- The left side of a row, less its right side. -/
def Misses (row : Vector Extended n × Extended) (x : Variable → ℚ) (gap : ℚ) : Prop :=
  ∃ R c, Denotes row.1 R ∧ row.2 = finite c ∧ rowValue R x - c = gap

theorem eliminate_denotes {row : Vector Extended n × Extended} {pivot : Reduced Extended n}
    {R P : Fin n → ℚ} (entries : Denotes row.1 R) (pivotEntries : Denotes pivot.entries P)
    (one : P pivot.column = 1) :
    Denotes (eliminate row pivot).1 (fun j => R j - R pivot.column * P j) := by
  have factor : row.1[pivot.column] = finite (R pivot.column) := entries pivot.column
  unfold eliminate
  rw [factor]
  dsimp only
  split
  next zero =>
    rw [zero_eq, beq_finite, decide_eq_true_eq] at zero
    simpa [zero] using entries
  next =>
    have difference : Denotes
        (row.1.zipWith (fun r p => r - finite (R pivot.column) * p) pivot.entries)
        (fun j => R j - R pivot.column * P j) := by
      intro j
      rw [Fin.getElem_fin, Vector.getElem_zipWith]
      change row.1[j] - _ * pivot.entries[j] = _
      rw [entries j, pivotEntries j, mul_finite, sub_finite]
    have gone : R pivot.column - R pivot.column * P pivot.column = 0 := by
      rw [one, mul_one, sub_self]
    have zeroed := denotes_set difference pivot.column (R pivot.column - R pivot.column * P pivot.column)
    rw [Function.update_eq_self, gone] at zeroed
    rwa [zero_eq]

theorem eliminate_scalar {row : Vector Extended n × Extended} {pivot : Reduced Extended n}
    {R : Fin n → ℚ} {c d : ℚ} (entries : Denotes row.1 R) (scalar : row.2 = finite c)
    (pivotScalar : pivot.scalar = finite d) :
    (eliminate row pivot).2 = finite (c - R pivot.column * d) := by
  have factor : row.1[pivot.column] = finite (R pivot.column) := entries pivot.column
  unfold eliminate
  rw [factor]
  dsimp only
  split
  next zero =>
    rw [zero_eq, beq_finite, decide_eq_true_eq] at zero
    rw [scalar, zero, zero_mul, sub_zero]
  next => rw [scalar, pivotScalar, mul_finite, sub_finite]

theorem rowValue_sub_mul (R P : Fin n → ℚ) (factor : ℚ) (x : Variable → ℚ) :
    rowValue (fun j => R j - factor * P j) x = rowValue R x - factor * rowValue P x := by
  simp only [rowValue, Finset.mul_sum, ← Finset.sum_sub_distrib]
  apply Finset.sum_congr rfl
  intro j _
  ring

theorem eliminate_misses {row : Vector Extended n × Extended} {pivot : Reduced Extended n}
    {x : Variable → ℚ} {gap : ℚ} (misses : Misses row x gap) (reduced : pivot.Holds x) :
    Misses (eliminate row pivot) x gap := by
  obtain ⟨R, c, entries, scalar, value⟩ := misses
  obtain ⟨P, d, pivotEntries, pivotScalar, one, pivotValue⟩ := reduced
  refine ⟨_, _, eliminate_denotes entries pivotEntries one,
    eliminate_scalar entries scalar pivotScalar, ?_⟩
  rw [rowValue_sub_mul, pivotValue, ← value]
  ring

theorem foldl_eliminate_misses {pivots : List (Reduced Extended n)}
    {row : Vector Extended n × Extended} {x : Variable → ℚ} {gap : ℚ} (misses : Misses row x gap)
    (reduced : ∀ p ∈ pivots, p.Holds x) : Misses (pivots.foldl eliminate row) x gap := by
  induction pivots generalizing row with
  | nil => exact misses
  | cons p rest ih =>
    exact ih (eliminate_misses misses (reduced p (by simp)))
      fun other member => reduced other (by simp [member])

theorem normalize_denotes {row : Vector Extended n} {R : Fin n → ℚ} (entries : Denotes row R)
    {column : Fin n} (apart : R column ≠ 0) (scalar : Extended) :
    Denotes (normalize row scalar column).entries fun j => R j / R column := by
  have pivot : row.get column = finite (R column) := entries column
  have quotient : Denotes (row.map (· / finite (R column))) fun j => R j / R column := by
    intro j
    rw [Fin.getElem_fin, Vector.getElem_map]
    change row[j] / _ = _
    rw [entries j, div_finite _ apart]
  have set := denotes_set quotient column (R column / R column)
  rw [Function.update_eq_self, div_self apart] at set
  simpa only [normalize, pivot, one_eq] using set

theorem normalize_holds {row : Vector Extended n} {scalar : Extended} {x : Variable → ℚ}
    (holds : Misses (row, scalar) x 0) {column : Fin n}
    (nonzero : row.get column ≠ finite 0) : (normalize row scalar column).Holds x := by
  obtain ⟨R, c, entries, rfl, value⟩ := holds
  have pivot : row.get column = finite (R column) := entries column
  have apart : R column ≠ 0 := by
    intro zero
    exact nonzero (pivot.trans (by rw [zero]))
  refine ⟨_, c / R column, normalize_denotes entries apart _, ?_, div_self apart, ?_⟩
  · simp only [normalize, pivot]
    exact div_finite _ apart
  · rw [← sub_eq_zero.mp value]
    simp only [rowValue, Finset.sum_div]
    apply Finset.sum_congr rfl
    intro j _
    ring

theorem largestEntry_spec {row : Vector Extended n} {R : Fin n → ℚ} (entries : Denotes row R) :
    ∃ l, largestEntry row = finite l ∧ (∀ j, |R j| ≤ l) ∧ (l = 0 ∨ ∃ j, l = |R j|) := by
  have each : ∀ (values : List Extended) (start : ℚ),
      (∀ v ∈ values, ∃ j, v = finite (R j)) →
      ∃ l, values.foldl (fun largest x => Scalar.max largest (Scalar.abs x)) (finite start) = finite l ∧
        start ≤ l ∧ (∀ j, finite (R j) ∈ values → |R j| ≤ l) ∧ (l = start ∨ ∃ j, l = |R j|) := by
    intro values
    induction values with
    | nil => exact fun start _ => ⟨start, rfl, le_rfl, by simp, .inl rfl⟩
    | cons v rest ih =>
      intro start known
      obtain ⟨k, rfl⟩ := known v (by simp)
      obtain ⟨l, same, least, bound, attained⟩ :=
        ih (max start |R k|) fun v member => known v (by simp [member])
      refine ⟨l, ?_, le_trans (le_max_left _ _) least, ?_, ?_⟩
      · rw [List.foldl_cons, abs_finite, max_finite, same]
      · intro j member
        rcases List.mem_cons.mp member with first | later
        · rw [finite.inj first]
          exact le_trans (le_max_right _ _) least
        · exact bound j later
      · rcases attained with rfl | other
        · rcases max_choice start |R k| with left | right
          · exact .inl left
          · exact .inr ⟨k, right⟩
        · exact .inr other
  have known : ∀ v ∈ row.toList, ∃ j, v = finite (R j) := by
    intro v member
    obtain ⟨i, inside, rfl⟩ := List.mem_iff_getElem.mp member
    exact ⟨⟨i, by simpa using inside⟩, by simpa using entries ⟨i, by simpa using inside⟩⟩
  obtain ⟨l, same, -, bound, attained⟩ := each row.toList 0 known
  refine ⟨l, ?_, fun j => bound j ?_, attained⟩
  · rw [largestEntry, zero_eq, same]
  · rw [← entries j]
    simp

theorem pivotShare_eq : (pivotShare : Extended) = finite (1 / 100) := by
  change finite (Rat.ofScientific 1 true 2) = _
  congr 1
  norm_num [Rat.ofScientific_true_def]

/-- How large the values of the first `n` variables are together. -/
def magnitude (n : Nat) (x : Variable → ℚ) : ℚ := ∑ v ∈ Finset.range n, |x v|

theorem magnitude_nonneg (n : Nat) (x : Variable → ℚ) : 0 ≤ magnitude n x :=
  Finset.sum_nonneg fun _ _ => abs_nonneg _

theorem rowValue_le {R : Fin n → ℚ} {epsilon : ℚ} (small : ∀ j, |R j| ≤ epsilon) (x : Variable → ℚ) :
    |rowValue R x| ≤ epsilon * magnitude n x := by
  calc |rowValue R x|
      ≤ ∑ j, |R j * x j| := Finset.abs_sum_le_sum_abs _ _
    _ ≤ ∑ j : Fin n, epsilon * |x j| := by
        apply Finset.sum_le_sum
        intro j _
        rw [abs_mul]
        exact mul_le_mul_of_nonneg_right (small j) (abs_nonneg _)
    _ = epsilon * magnitude n x := by
        rw [← Finset.mul_sum, magnitude, Finset.sum_range]

variable {q : Query Extended} {t : Tolerance Extended} {epsilon : ℚ}

theorem reduce_misses {e : Equation Extended} (formed : e.WellFormed)
    (known : ∀ a ∈ e.addends, a.var < n) {pivots : List (Reduced Extended n)} {x : Variable → ℚ}
    (reduced : ∀ p ∈ pivots, p.Holds x) :
    Misses (pivots.foldl eliminate (denseRow n e, e.scalar)) x (e.left x - e.right) := by
  obtain ⟨D, dense, value⟩ := denseRow_denotes formed known
  exact foldl_eliminate_misses ⟨D, e.right, dense, formed.scalar_eq, by rw [value]⟩ reduced

theorem select_rows {equations : List (Equation Extended)}
    {kept : List (Reduced Extended q.size × BasisRow Extended)} {index : Nat}
    {rows : List (BasisRow Extended)} (run : select q t kept index equations = .ok rows) :
    (∀ p ∈ kept, p.2 ∈ rows) ∧ ∀ row ∈ rows, (∃ p ∈ kept, p.2 = row) ∨
      (row.basic < q.size ∧ ∃ k, row.index = index + k ∧ equations[k]? = some row.equation) := by
  induction equations generalizing kept index with
  | nil =>
    obtain rfl := Except.ok.inj run
    exact ⟨fun p member => List.mem_map_of_mem member, fun row member => .inl (List.mem_map.mp member)⟩
  | cons e rest ih =>
    rw [select] at run
    dsimp only at run
    split at run
    next column _ =>
      obtain ⟨old, new⟩ := ih run
      refine ⟨fun p member => old p (by simp [member]), fun row member => ?_⟩
      rcases new row member with ⟨p, among, rfl⟩ | ⟨inside, k, at_, found⟩
      · rcases List.mem_append.mp among with before | here
        · exact .inl ⟨p, before, rfl⟩
        · obtain rfl := List.mem_singleton.mp here
          exact .inr ⟨column.isLt, 0, rfl, rfl⟩
      · exact .inr ⟨inside, k + 1, by omega, found⟩
    next =>
      split at run
      · obtain ⟨old, new⟩ := ih run
        refine ⟨old, fun row member => (new row member).imp_right ?_⟩
        rintro ⟨inside, k, at_, found⟩
        exact ⟨inside, k + 1, by omega, found⟩
      · cases run

theorem compute_listed {b : CrashBasis Extended} (run : compute q t = .ok b) :
    ∀ row ∈ b.rows, q.equations[row.index]? = some row.equation ∧ row.basic < q.size := by
  obtain ⟨rows, selected, made⟩ := bind_eq_ok.mp run
  obtain rfl := Except.ok.inj made
  intro row member
  rcases (select_rows selected).2 row member with ⟨p, kept, -⟩ | ⟨inside, k, here, found⟩
  · cases kept
  · rw [here, zero_add]
    exact ⟨found, inside⟩

theorem compute_spec {b : CrashBasis Extended} (run : compute q t = .ok b) :
    (∀ row ∈ b.rows, row.equation ∈ q.equations ∧ row.basic < q.size) ∧
      b.nonBasic = q.allVariables.filter fun v => !b.rows.any (·.basic == v) := by
  refine ⟨fun row member => (compute_listed run row member).imp_left List.mem_of_getElem?, ?_⟩
  obtain ⟨rows, selected, same⟩ := bind_eq_ok.mp run
  obtain rfl := Except.ok.inj same
  rfl

section Tolerant

variable (same : t.epsilon = finite epsilon) (nonneg : 0 ≤ epsilon)
include same nonneg

theorem pivotColumn?_eq_none {row : Vector Extended n} {R : Fin n → ℚ}
    (entries : Denotes row R) (none : pivotColumn? q t row = none) : ∀ j, |R j| ≤ epsilon := by
  obtain ⟨l, largest, bound, attained⟩ := largestEntry_spec entries
  unfold pivotColumn? at none
  rw [largest, pivotShare_eq] at none
  dsimp only at none
  rw [mul_finite] at none
  split at none
  next tiny =>
    rw [Tolerance.isZero_finite same] at tiny
    exact fun j => (bound j).trans ((le_abs_self l).trans tiny)
  next apart =>
    rw [Tolerance.isZero_finite same, not_le] at apart
    obtain ⟨j, rfl⟩ := attained.resolve_left fun zero =>
      absurd apart (by rw [zero, abs_zero, not_lt]; exact nonneg)
    have empty := firstBest?_eq_none.mp none
    have chosen := List.filter_eq_nil_iff.mp empty j (List.mem_finRange j)
    have entry : row.get j = finite (R j) := entries j
    have large : |R j| * (1 / 100) ≤ |R j| := by linarith [abs_nonneg (R j)]
    have pivot : t.isZero (finite (R j)) = false := by
      rwa [Bool.eq_false_iff, ne_eq, Tolerance.isZero_finite same, not_le, ← abs_abs]
    rw [entry, abs_finite, pivot, decide_eq_true (le_finite.mpr large)] at chosen
    exact absurd rfl chosen

theorem pivotColumn?_ne_zero {row : Vector Extended n} {column : Fin n}
    (some : pivotColumn? q t row = some column) : row.get column ≠ finite 0 := by
  intro zero
  unfold pivotColumn? at some
  dsimp only at some
  split at some
  · cases some
  · have member := (List.mem_filter.mp (firstBest?_mem some)).2
    have tiny : t.isZero (row.get column) = true := by
      rw [zero, Tolerance.isZero_finite same, abs_zero]
      exact nonneg
    rw [tiny] at member
    simp at member

section Select

variable {equations : List (Equation Extended)}
  {kept : List (Reduced Extended q.size × BasisRow Extended)} {index : Nat}

/-- An equation is kept, or what an assignment that satisfies the kept ones leaves of it counts as
zero. Then it is dropped, unless its right side does not count as zero. -/
theorem select_cons {e : Equation Extended} (formed : e.WellFormed)
    (known : ∀ a ∈ e.addends, a.var < q.size) (rest : List (Equation Extended)) :
    (∃ pivot : Reduced Extended q.size × BasisRow Extended,
      pivot.2.index = index ∧ pivot.2.equation = e ∧
      select q t kept index (e :: rest) = select q t (kept ++ [pivot]) (index + 1) rest ∧
      ∀ x, (∀ p ∈ kept, p.1.Holds x) → e.Holds x → pivot.1.Holds x) ∨
    (select q t kept index (e :: rest) = select q t kept (index + 1) rest ∧
      ∀ x, (∀ p ∈ kept, p.1.Holds x) →
        |e.left x - e.right| ≤ epsilon * (1 + magnitude q.size x)) ∨
    (select q t kept index (e :: rest) = .error ⟨index⟩ ∧
      ∀ x, (∀ p ∈ kept, p.1.Holds x) → e.Holds x → epsilon < epsilon * magnitude q.size x) := by
  have misses : ∀ x, (∀ p ∈ kept, p.1.Holds x) → Misses
      ((kept.map (·.1)).foldl eliminate (denseRow q.size e, e.scalar)) x (e.left x - e.right) :=
    fun x reduced => reduce_misses formed known (by simpa using reduced)
  rw [select]
  generalize (kept.map (·.1)).foldl eliminate (denseRow q.size e, e.scalar) = left at misses ⊢
  obtain ⟨entries, scalar⟩ := left
  dsimp only
  split
  next column chosen =>
    refine .inl ⟨_, rfl, rfl, rfl, fun x reduced holds => ?_⟩
    have exactly := misses x reduced
    rw [formed.holds_iff.mp holds, sub_self] at exactly
    exact normalize_holds exactly (pivotColumn?_ne_zero same nonneg chosen)
  next none =>
    split
    next zero =>
      refine .inr (.inl ⟨rfl, fun x reduced => ?_⟩)
      obtain ⟨R, c, denotes, rfl, value⟩ := misses x reduced
      have left := rowValue_le (pivotColumn?_eq_none same nonneg denotes none) x
      have right := (Tolerance.isZero_finite same).mp zero
      rw [← value]
      linarith [abs_sub (rowValue R x) c]
    next apart =>
      refine .inr (.inr ⟨rfl, fun x reduced holds => ?_⟩)
      obtain ⟨R, c, denotes, rfl, value⟩ := misses x reduced
      have left := rowValue_le (pivotColumn?_eq_none same nonneg denotes none) x
      rw [Tolerance.isZero_finite same, not_le] at apart
      rw [formed.holds_iff.mp holds, sub_self, sub_eq_zero] at value
      exact lt_of_lt_of_le (value ▸ apart) left

variable (formed : ∀ e ∈ equations, e.WellFormed)
  (known : ∀ e ∈ equations, ∀ a ∈ e.addends, a.var < q.size)
include formed known

/-- Only an assignment of large values can satisfy equations of which one is found to contradict
the others. -/
theorem select_error {cause : Inconsistent} (run : select q t kept index equations = .error cause) :
    ∃ k < equations.length, cause.index = index + k ∧ ∀ x, (∀ p ∈ kept, p.1.Holds x) →
      (∀ e ∈ equations.take (k + 1), e.Holds x) → epsilon < epsilon * magnitude q.size x := by
  induction equations generalizing kept index with
  | nil => cases run
  | cons e rest ih =>
    have later := fun {kept} {index} => @ih kept index (fun o member => formed o (by simp [member]))
      (fun o member => known o (by simp [member]))
    rcases select_cons same nonneg (formed e (by simp)) (known e (by simp)) rest with
      ⟨pivot, -, -, step, holds⟩ | ⟨step, -⟩ | ⟨step, large⟩
    · obtain ⟨k, inside, found, large⟩ := later (step.symm.trans run)
      refine ⟨k + 1, by simpa using inside, by omega, fun x reduced hold => large x ?_ ?_⟩
      · intro p member
        rcases List.mem_append.mp member with old | new
        · exact reduced p old
        · exact List.mem_singleton.mp new ▸ holds x reduced (hold e (by simp))
      · exact fun o member => hold o (by simp [member])
    · obtain ⟨k, inside, found, large⟩ := later (step.symm.trans run)
      exact ⟨k + 1, by simpa using inside, by omega, fun x reduced hold =>
        large x reduced fun o member => hold o (by simp [member])⟩
    · obtain rfl := Except.error.inj (step.symm.trans run)
      exact ⟨0, by simp, rfl, fun x reduced hold => large x reduced (hold e (by simp))⟩

/-- Whatever satisfies the rows that are kept misses no equation by much. -/
theorem select_misses {rows : List (BasisRow Extended)}
    (run : select q t kept index equations = .ok rows) {x : Variable → ℚ}
    (reduced : ∀ p ∈ kept, p.1.Holds x) (hold : ∀ row ∈ rows, row.equation.Holds x) :
    ∀ e ∈ equations, |e.left x - e.right| ≤ epsilon * (1 + magnitude q.size x) := by
  induction equations generalizing kept index with
  | nil => simp
  | cons e rest ih =>
    have later := fun {kept} {index} => @ih kept index (fun o member => formed o (by simp [member]))
      (fun o member => known o (by simp [member]))
    rcases select_cons same nonneg (formed e (by simp)) (known e (by simp)) rest with
      ⟨pivot, -, rfl, step, holds⟩ | ⟨step, small⟩ | ⟨step, -⟩
    · have run := step.symm.trans run
      have here := hold _ ((select_rows run).1 pivot (by simp))
      rw [List.forall_mem_cons]
      refine ⟨?_, later run fun p member => ?_⟩
      · rw [(formed _ (by simp)).holds_iff.mp here, sub_self, abs_zero]
        exact mul_nonneg nonneg (by linarith [magnitude_nonneg q.size x])
      · rcases List.mem_append.mp member with old | new
        · exact reduced p old
        · exact List.mem_singleton.mp new ▸ holds x reduced here
    · rw [List.forall_mem_cons]
      exact ⟨small x reduced, later (step.symm.trans run) reduced⟩
    · cases step.symm.trans run

end Select

variable (formed : ∀ e ∈ q.equations, e.WellFormed)
include formed

theorem compute_error {cause : Inconsistent} (run : compute q t = .error cause) :
    cause.index < q.equations.length ∧
      ∀ x, (∀ e ∈ q.equations.take (cause.index + 1), e.Holds x) →
        epsilon < epsilon * magnitude q.size x := by
  have selected : select q t [] 0 q.equations = .error cause := by
    unfold compute at run
    cases made : select q t [] 0 q.equations with
    | ok rows => rw [made] at run; cases run
    | error other => rw [made] at run; cases run; rfl
  obtain ⟨k, inside, found, large⟩ := select_error same nonneg formed q.equations_known selected
  obtain rfl : cause = ⟨k⟩ := by cases cause; simpa using found
  exact ⟨inside, fun x hold => large x (by simp) hold⟩

theorem compute_misses {b : CrashBasis Extended} (run : compute q t = .ok b) {x : Variable → ℚ}
    (hold : ∀ row ∈ b.rows, row.equation.Holds x) :
    ∀ e ∈ q.equations, |e.left x - e.right| ≤ epsilon * (1 + magnitude q.size x) := by
  obtain ⟨rows, selected, made⟩ := bind_eq_ok.mp run
  obtain rfl := Except.ok.inj made
  exact select_misses same nonneg formed q.equations_known selected (by simp) hold

/-- Consistency is judged up to the tolerance. Where an equation is found to contradict those
before it, they have no common solution of moderate size, and none at all if numbers are compared
as they are. Otherwise a solution of the listed equations misses no equation by much. -/
theorem compute_tolerant :
    match compute q t with
    | .error cause => cause.index < q.equations.length ∧
        ∀ x, (∀ e ∈ q.equations.take (cause.index + 1), e.Holds x) →
          epsilon < epsilon * magnitude q.size x
    | .ok b => ∀ x, (∀ row ∈ b.rows, ∀ e, q.equations[row.index]? = some e → e.Holds x) →
        ∀ e ∈ q.equations, |e.left x - e.right| ≤ epsilon * (1 + magnitude q.size x) := by
  split
  next cause run => exact compute_error same nonneg formed run
  next b run =>
    exact fun x hold => compute_misses same nonneg formed run fun row member =>
      hold row member _ (compute_listed run row member).1

end Tolerant

/-- An equation that the one before it implies but for a tiny term is dropped. With another right
side it contradicts that one, although the tiny term can make up for the difference. -/
theorem compute_tolerant_nearly_redundant :
    let t : Tolerance Extended := ⟨Tolerance.defaultEpsilon⟩
    let redundant : Query Extended := { Query.unconstrained 3 with
      equations := [⟨[⟨2, 0⟩, ⟨1, 1⟩], 3⟩, ⟨[⟨4, 0⟩, ⟨2, 1⟩, ⟨finite (1 / 2 ^ 31), 2⟩], 6⟩]
      equations_known := by decide }
    let contradictory : Query Extended := { Query.unconstrained 3 with
      equations := [⟨[⟨2, 0⟩, ⟨1, 1⟩], 3⟩, ⟨[⟨4, 0⟩, ⟨2, 1⟩, ⟨finite (1 / 2 ^ 31), 2⟩], 7⟩]
      equations_known := by decide }
    (∃ b, compute redundant t = .ok b ∧ b.rows.map (·.index) = [0] ∧
      ∀ x, (∀ row ∈ b.rows, ∀ e, redundant.equations[row.index]? = some e → e.Holds x) →
        ∀ e ∈ redundant.equations, |e.left x - e.right| ≤ 1 / 10 ^ 9 * (1 + magnitude 3 x)) ∧
    compute contradictory t = .error ⟨1⟩ ∧
      ∀ x, (∀ e ∈ contradictory.equations, e.Holds x) →
        (1 / 10 ^ 9 : ℚ) < 1 / 10 ^ 9 * magnitude 3 x := by
  intro t redundant contradictory
  have same : t.epsilon = finite (1 / 10 ^ 9) := by decide +kernel
  have judged := compute_tolerant (q := redundant) same (by norm_num) (by decide +kernel)
  have refuted := compute_tolerant (q := contradictory) same (by norm_num) (by decide +kernel)
  have listed : (compute redundant t).toOption.map (fun b => b.rows.map (·.index)) = some [0] := by
    decide +kernel
  have contradicts : compute contradictory t = .error ⟨1⟩ := eq_error (by decide +kernel)
  obtain ⟨b, run, indices⟩ := toOption_map_eq_some listed
  rw [run] at judged
  rw [contradicts] at refuted
  exact ⟨⟨b, run, indices, judged⟩, contradicts, refuted.2⟩

/-- A coefficient that counts as zero makes the difference: one equation is found to be without
solution, and another one is dropped, although each has solutions and not all assignments are. -/
theorem compute_misjudges_tiny_coefficient :
    let t : Tolerance Extended := ⟨Tolerance.defaultEpsilon⟩
    let solvable : Query Extended := { Query.unconstrained 1 with
      equations := [⟨[⟨finite (1 / 2 ^ 31), 0⟩], 1⟩]
      equations_known := by decide }
    let homogeneous : Query Extended := { Query.unconstrained 1 with
      equations := [⟨[⟨finite (1 / 2 ^ 31), 0⟩], 0⟩]
      equations_known := by decide }
    (compute solvable t = .error ⟨0⟩ ∧ ∃ x, ∀ e ∈ solvable.equations.take 1, e.Holds x) ∧
    ∃ b, compute homogeneous t = .ok b ∧ ∃ x : Variable → ℚ,
      (∀ row ∈ b.rows, ∀ e, homogeneous.equations[row.index]? = some e → e.Holds x) ∧
      ¬ ∀ e ∈ homogeneous.equations, e.Holds x := by
  intro t solvable homogeneous
  have dropped : (compute homogeneous t).toOption.map (fun b => b.rows.map (·.index)) = some [] := by
    decide +kernel
  obtain ⟨b, run, none⟩ := toOption_map_eq_some dropped
  rw [List.map_eq_nil_iff] at none
  refine ⟨⟨eq_error (by decide +kernel), fun _ => 2 ^ 31, ?_⟩, b, run, fun _ => 1, by simp [none], ?_⟩
  · unfold Equation.Holds
    decide +kernel
  · unfold Equation.Holds
    decide +kernel

/-- Equations that an assignment satisfies are not found to contradict each other where numbers are
compared as they are. -/
theorem compute_consistent (precise : t.epsilon = 0) (formed : ∀ e ∈ q.equations, e.WellFormed)
    {x : Variable → ℚ} (hold : ∀ e ∈ q.equations, e.Holds x) : ∃ b, compute q t = .ok b := by
  cases run : compute q t with
  | error cause =>
    have large := (compute_error (by simpa using precise) le_rfl formed run).2 x
      fun e member => hold e (List.mem_of_mem_take member)
    simp at large
  | ok b => exact ⟨b, rfl⟩

end CrashBasis

end ReluSolver
