import ReluSolver.Proofs.BasisMachine
import ReluSolver.Proofs.CrashIndependence

/-! The rows that are derived from a factorized basis, at once or one by one. They are the
combinations of the basis equations by the rows of the inverse, so both ways lead to the
same rows. What an equation of the query says about an assignment they say too, but for
terms that count as zero. -/

namespace ReluSolver

open Extended Matrix

namespace BasisMachine

variable {m : Nat} {B : Matrix (Fin m) (Fin m) ℚ} {f : Factorization Extended}

/-- Operations that began with identities have made `f` of one of them, and `B` is its matrix. -/
def Reached (f : Factorization Extended) (B : Matrix (Fin m) (Fin m) ℚ) : Prop :=
  ∃ pool events, (∀ cell ∈ pool, ∃ kind m config, cell = Cell.identity kind m config) ∧
    ⟨m, f, B⟩ ∈ run pool events

theorem Reached.identity (kind : FactorKind) (config : FactorConfig Extended) :
    Reached (Factorization.create kind m config) (1 : Matrix (Fin m) (Fin m) ℚ) := by
  refine ⟨[.identity kind m config], [], fun cell member => ?_, List.mem_singleton_self _⟩
  exact ⟨kind, m, config, List.mem_singleton.mp member⟩

theorem Reached.change (reached : Reached f B) {c : Change} {next : Factorization Extended}
    (made : c.perform f = .ok next) : Reached next (c.onMatrix B) := by
  obtain ⟨pool, events, starts, member⟩ := reached
  obtain ⟨place, inside, found⟩ := List.mem_iff_getElem.mp member
  refine ⟨pool, events ++ [.change place c], starts, ?_⟩
  have changed : Cell.change ⟨m, f, B⟩ c = ⟨m, next, c.onMatrix B⟩ := by
    rw [Cell.change, made]
  have last : run pool (events ++ [.change place c]) = step (run pool events) (.change place c) := by
    rw [run, List.foldl_append]
    rfl
  rw [last, step, List.getElem?_eq_getElem inside, found]
  dsimp only
  rw [changed]
  exact List.mem_set inside _

theorem Reached.shows (reached : Reached f B) (regular : IsUnit B) :
    ∃ g : Factored Extended m, f = ⟨m, g⟩ ∧ g.Shows B := by
  obtain ⟨pool, events, starts, member⟩ := reached
  have initial : ∀ cell ∈ pool, cell.Shows := by
    intro cell member
    obtain ⟨kind, m, config, rfl⟩ := starts cell member
    exact ⟨Factored.identity kind config, rfl, fun _ => Factored.identity_shows kind config⟩
  obtain ⟨g, shape, shows⟩ := run_shows initial events _ member
  exact ⟨g, shape, shows regular⟩

theorem Reached.represents (reached : Reached f B) (regular : IsUnit B) : Represents f B := by
  obtain ⟨g, rfl, shows⟩ := reached.shows regular
  exact shown_represents shows

/-- Solving with a unit vector on the right side gives a row of the inverse. -/
theorem Represents.backward_unit (represents : Represents f B) (i : Fin m) {size : Nat}
    {out : Array Extended} (run : f.backward (unitVector i : Vector Extended m).toArray size = .ok out) :
    out = Array.ofFn fun j => finite (B⁻¹ i j) := by
  let unit : Array ℚ := Array.ofFn fun j : Fin m => if j.val = i then 1 else 0
  have given : (unitVector i : Vector Extended m).toArray = unit.map finite := by
    apply Array.ext
    · simp [unit]
    · intro j _ _
      simp only [unitVector, unit, Vector.getElem_toArray, Vector.getElem_ofFn, Array.getElem_map,
        Array.getElem_ofFn]
      split
      · exact one_eq
      · exact zero_eq
  have entries : vectorOf m unit = (1 : Matrix (Fin m) (Fin m) ℚ) i := by
    funext j
    simp [vectorOf, unit, Matrix.one_apply, Fin.ext_iff, eq_comm]
  rw [given] at run
  obtain ⟨-, x, rfl, unique⟩ := represents.backward unit size out run
  have solves : B⁻¹ i ᵥ* B = vectorOf m unit := by
    rw [entries, ← Matrix.nonsing_inv_mul B ((Matrix.isUnit_iff_isUnit_det B).mp represents.invertible)]
    rfl
  rw [(unique _).mp solves]

end BasisMachine

deriving instance DecidableEq for Addend
deriving instance DecidableEq for Equation
deriving instance DecidableEq for BasisRow
deriving instance DecidableEq for CrashBasis

namespace CrashBasis

variable {b : CrashBasis Extended}

variable {B : Matrix (Fin b.dimension) (Fin b.dimension) ℚ} {f : Factorization Extended}
  (represents : BasisMachine.Represents f B) {t : Tolerance Extended}
  {rows : List (Equation Extended)}
include represents

theorem explicitRows_eq (run : b.explicitRows t f = .ok rows) : rows = b.combinedBy t B⁻¹ := by
  obtain ⟨inverse, inverted, same⟩ := bind_eq_ok.mp run
  obtain rfl := Except.ok.inj same
  obtain rfl := represents.inverse _ _ inverted
  apply List.ext_getElem
  · simp [BasisMachine.rowsOf, combinedBy, basic]
  · intro i first second
    simp [BasisMachine.rowsOf, combinedBy, basic, List.ofFn_eq_map]

theorem implicitRows_eq (run : b.implicitRows t f = .ok rows) : rows = b.combinedBy t B⁻¹ := by
  obtain ⟨length, each⟩ := List.forall₂_iff_get.mp (mapM_forall₂ run)
  have sizes : rows.length = b.dimension := by simpa [basic] using length.symm
  apply List.ext_getElem
  · simpa [combinedBy] using sizes
  · intro i first second
    have small : i < b.dimension := sizes ▸ first
    obtain ⟨out, solved, same⟩ := bind_eq_ok.mp (each i (by simpa [basic] using small) first)
    simp only [List.get_eq_getElem, List.getElem_zipIdx, zero_add] at solved same
    obtain rfl := represents.backward_unit ⟨i, small⟩ solved
    rw [← Except.ok.inj same]
    simp [combinedBy, basic, List.ofFn_eq_map]

omit represents in
/-- However a basis was changed, cloned and copied over, the rows that are derived at once are those
that are derived one by one, and so they tighten the same bounds. -/
theorem derivations_agree {effort : Effort Extended} {pool : List BasisMachine.Cell}
    (starts : ∀ cell ∈ pool, ∃ kind m config,
      0 < config.pivotTolerance ∧ cell = BasisMachine.Cell.identity kind m config)
    {events : List BasisMachine.Event} (reached : ⟨b.dimension, f, B⟩ ∈ BasisMachine.run pool events)
    {others : List (Equation Extended)} (atOnce : b.explicitRows effort.tolerance f = .ok rows)
    (oneByOne : b.implicitRows effort.tolerance f = .ok others) :
    others = rows ∧ rows.length = b.dimension ∧
      ∀ untilSaturation s, effort.examineInverseByRow b f untilSaturation s =
        effort.examineInverse b f untilSaturation s := by
  have represents := BasisMachine.run_represents starts events _ reached
  obtain rfl := explicitRows_eq represents atOnce
  obtain rfl := implicitRows_eq represents oneByOne
  refine ⟨rfl, by simp [combinedBy], fun untilSaturation s => ?_⟩
  rw [Effort.examineInverseByRow, oneByOne, Effort.examineInverse, atOnce]

omit represents in
/-- A clone exchanges a column and is made explicit, and the basis that it was cloned from takes over
its state. -/
theorem derivations_agree_clone :
    let effort : Effort Extended := ⟨⟨Tolerance.defaultEpsilon⟩, 0, 2⟩
    let first : Equation Extended := ⟨[⟨2, 0⟩, ⟨1, 1⟩, ⟨1, 2⟩], 3⟩
    let second : Equation Extended := ⟨[⟨1, 0⟩, ⟨-1, 1⟩, ⟨2, 2⟩], 6⟩
    let b : CrashBasis Extended := ⟨[⟨0, first, 0⟩, ⟨1, second, 1⟩], [2]⟩
    let rows : List (Equation Extended) := [⟨[⟨1, 0⟩, ⟨1, 2⟩], 3⟩, ⟨[⟨1, 1⟩, ⟨-1, 2⟩], -3⟩]
    let last := BasisMachine.run [.identity .forrestTomlin 2 ⟨0.001, 5⟩] [
      .change 0 (.setBasis #[2, 0, 1, 1]), .clone 0, .change 1 (.push 1 #[1 / 2, -3 / 2]),
      .change 1 .makeExplicit, .restore 0 1]
    ∃ cell ∈ last, b.explicitRows effort.tolerance cell.factorization = .ok rows ∧
      b.implicitRows effort.tolerance cell.factorization = .ok rows ∧
      ∀ untilSaturation s, effort.examineInverseByRow b cell.factorization untilSaturation s =
        effort.examineInverse b cell.factorization untilSaturation s := by
  intro effort first second b rows last
  have derived : ∃ cell ∈ last, cell.dimension = 2 ∧
      b.explicitRows effort.tolerance cell.factorization = .ok rows ∧
      (b.implicitRows effort.tolerance cell.factorization).toOption.isSome = true := by decide +kernel
  have starts : ∀ cell ∈ [BasisMachine.Cell.identity .forrestTomlin 2 ⟨0.001, 5⟩],
      ∃ kind m config, 0 < config.pivotTolerance ∧ cell = BasisMachine.Cell.identity kind m config := by
    intro cell member
    exact ⟨_, _, _, by decide +kernel, List.mem_singleton.mp member⟩
  obtain ⟨⟨m, f, B⟩, member, rfl, atOnce, finished⟩ := derived
  cases oneByOne : b.implicitRows effort.tolerance f with
  | error cause =>
    rw [oneByOne] at finished
    cases finished
  | ok others =>
    obtain ⟨same, -, alike⟩ := derivations_agree (b := b) starts member atOnce oneByOne
    exact ⟨_, member, atOnce, same ▸ oneByOne, alike⟩

omit represents in
/-- A derived row leaves out terms of non-basic variables with coefficients that count as zero. With
them it is satisfied by whatever satisfies the equations of the query; none is left out where
numbers are compared as they are. -/
theorem derivedRows_implied {q : Query Extended} (formed : ∀ e ∈ q.equations, e.WellFormed)
    {epsilon : ℚ} (same : t.epsilon = finite epsilon) (nonneg : 0 ≤ epsilon)
    {s : Tolerance Extended} {delta : ℚ} (exact : s.epsilon = finite delta) (least : 0 ≤ delta)
    (computed : compute q s = .ok b) (entries : b.matrix.Denotes B)
    (reached : BasisMachine.Reached f B)
    (derived : b.explicitRows t f = .ok rows ∨ b.implicitRows t f = .ok rows) :
    ∀ row ∈ rows, row.WellFormed ∧ ∃ tiny : Variable → ℚ, (∀ v, |tiny v| ≤ epsilon) ∧
      (∀ v ∈ b.nonBasic, tiny v ≠ 0 → ¬ row.Mentions v) ∧
      ∀ x, (∀ e ∈ q.equations, e.Holds x) →
        row.left x + (b.nonBasic.map fun v => tiny v * x v).sum = row.right := by
  have within := compute_within formed computed
  obtain rfl : B = b.rates := by
    ext i j
    exact finite.inj ((entries i j).symm.trans (matrix_denotes within.formed i j))
  have represents := reached.represents (compute_isUnit exact least formed computed)
  have inverse : b.rates⁻¹ * b.rates = 1 :=
    nonsing_inv_mul _ ((isUnit_iff_isUnit_det _).mp represents.invertible)
  obtain rfl : rows = b.combinedBy t b.rates⁻¹ := by
    rcases derived with run | run
    · exact explicitRows_eq represents run
    · exact implicitRows_eq represents run
  intro row member
  obtain ⟨i, -, rfl⟩ := List.mem_map.mp member
  obtain ⟨wellFormed, -, -, mentions⟩ := combination_spec within same (b.rows[i]).basic rfl
  refine ⟨wellFormed, leftOut epsilon (b.combinedRate (b.rates⁻¹ i)), leftOut_le nonneg _, ?_, ?_⟩
  · intro v member apart said
    rcases mentions v said with rfl | ⟨-, large⟩
    · rw [within.nonBasic] at member
      have other := (List.mem_filter.mp member).2
      rw [Bool.not_eq_true', List.any_eq_false] at other
      exact other _ (List.getElem_mem i.isLt) (beq_self_eq_true _)
    · exact apart (if_neg (not_le.mpr large))
  · intro x hold
    exact combination_add_leftOut inverse within same
      (fun row member => hold _ ((compute_spec computed).1 row member).1) i rfl

omit represents in
/-- A basis that an exchange leads to, factorized anew. Both rows leave out a tiny term of the last
variable. -/
theorem derivedRows_implied_exchanged :
    let t : Tolerance Extended := ⟨Tolerance.defaultEpsilon⟩
    let first : Equation Extended := ⟨[⟨2, 0⟩, ⟨1, 1⟩, ⟨1, 2⟩], 3⟩
    let second : Equation Extended := ⟨[⟨1, 0⟩, ⟨-1, 1⟩, ⟨finite (1 / 2 ^ 31), 3⟩, ⟨2, 2⟩], 6⟩
    let q : Query Extended := { Query.unconstrained 4 with
      equations := [first, second]
      equations_known := by decide }
    let b : CrashBasis Extended := ⟨[⟨0, first, 0⟩, ⟨1, second, 1⟩], [2, 3]⟩
    let rows : List (Equation Extended) := [⟨[⟨1, 0⟩, ⟨1, 2⟩], 3⟩, ⟨[⟨1, 1⟩, ⟨-1, 2⟩], -3⟩]
    compute q t = .ok b ∧ ∃ f, BasisMachine.Reached f !![2, 1; 1, -1] ∧
      b.explicitRows t f = .ok rows ∧
      ∀ row ∈ rows, row.WellFormed ∧ ∃ tiny : Variable → ℚ, (∀ v, |tiny v| ≤ 1 / 10 ^ 9) ∧
        (∀ v ∈ [2, 3], tiny v ≠ 0 → ¬ row.Mentions v) ∧
        ∀ x, (∀ e ∈ q.equations, e.Holds x) →
          row.left x + ([2, 3].map fun v => tiny v * x v).sum = row.right := by
  intro t first second q b rows
  let config : FactorConfig Extended := ⟨0, 5⟩
  have evaluated : (do
      let f ← BasisMachine.Change.perform (Factorization.create .forrestTomlin 2 config)
        (.setBasis #[2, 0, 1, 1])
      let f ← BasisMachine.Change.perform f (.push 1 #[1 / 2, -3 / 2])
      let f ← BasisMachine.Change.perform f .refactorize
      b.explicitRows t f) = .ok rows := by decide +kernel
  obtain ⟨f, set, evaluated⟩ := bind_eq_ok.mp evaluated
  obtain ⟨g, pushed, evaluated⟩ := bind_eq_ok.mp evaluated
  obtain ⟨h, refactorized, derived⟩ := bind_eq_ok.mp evaluated
  have computed : compute q t = .ok b := by decide +kernel
  have start : BasisMachine.Reached _ (1 : Matrix (Fin 2) (Fin 2) ℚ) :=
    .identity .forrestTomlin config
  have reached := ((start.change set).change pushed).change refactorized
  have matrix : BasisMachine.Change.onMatrix (BasisMachine.Change.onMatrix
      (BasisMachine.Change.onMatrix (1 : Matrix (Fin 2) (Fin 2) ℚ) (.setBasis #[2, 0, 1, 1]))
      (.push 1 #[1 / 2, -3 / 2])) .refactorize = !![2, 1; 1, -1] := by decide +kernel
  rw [matrix] at reached
  have entries : b.matrix.Denotes !![2, 1; 1, -1] := by
    unfold Square.Denotes ReluSolver.Denotes
    decide +kernel
  have same : t.epsilon = finite (1 / 10 ^ 9) := by decide +kernel
  exact ⟨computed, h, reached, derived, derivedRows_implied (by decide +kernel) same (by norm_num)
    same (by norm_num) computed entries reached (.inl derived)⟩

omit represents in
/-- A coefficient that counts as zero is left out of the only row, and an assignment for which it
matters violates the row, although it satisfies the equation. -/
theorem derivedRows_not_implied :
    let t : Tolerance Extended := ⟨Tolerance.defaultEpsilon⟩
    let e : Equation Extended := ⟨[⟨1, 0⟩, ⟨finite (1 / 2 ^ 31), 1⟩], 0⟩
    let q : Query Extended := { Query.unconstrained 2 with
      equations := [e]
      equations_known := by decide }
    let b : CrashBasis Extended := ⟨[⟨0, e, 0⟩], [1]⟩
    let f : Factorization Extended := .create .denseLu 1 .default
    let row : Equation Extended := ⟨[⟨1, 0⟩], 0⟩
    compute q t = .ok b ∧ BasisMachine.Reached f (1 : Matrix (Fin 1) (Fin 1) ℚ) ∧
      b.matrix.Denotes (1 : Matrix (Fin 1) (Fin 1) ℚ) ∧
      b.explicitRows t f = .ok [row] ∧ b.implicitRows t f = .ok [row] ∧
      ∃ x, (∀ e ∈ q.equations, e.Holds x) ∧ ¬ row.Holds x := by
  intro t e q b f row
  have entries : b.matrix.Denotes (1 : Matrix (Fin 1) (Fin 1) ℚ) := by
    unfold Square.Denotes ReluSolver.Denotes
    decide +kernel
  refine ⟨by decide +kernel, .identity .denseLu .default, entries, by decide +kernel,
    by decide +kernel, fun v => if v = 0 then -1 else 2 ^ 31, ?_⟩
  unfold Equation.Holds
  decide +kernel

end CrashBasis

end ReluSolver
