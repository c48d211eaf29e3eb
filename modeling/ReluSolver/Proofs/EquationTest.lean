import ReluSolver.Proofs.EquationTerms
import ReluSolver.Proofs.Steps

/-! What the test of an equation says about an assignment: the variables of the
equation have rational values, and these satisfy it up to the tolerance. -/

namespace ReluSolver

open Extended

theorem fetch_eq_ok {β : Type} {values : Array β} {index : Nat} {value : β} :
    fetch values index = .ok value ↔ values[index]? = some value := by
  unfold fetch
  cases values[index]? with
  | none => exact ⟨nofun, nofun⟩
  | some other => simp

namespace Extended

theorem of_add_eq_finite {a b : Extended} {r : ℚ} (sum : a + b = finite r) :
    (∃ u, a = finite u) ∧ ∃ v, b = finite v := by
  cases a <;> cases b <;> first | cases sum; done | exact ⟨⟨_, rfl⟩, _, rfl⟩

theorem of_mul_eq_finite {c r : ℚ} {a : Extended} (product : finite c * a = finite r) :
    ∃ u, a = finite u := by
  have signed : signedInfinity c ≠ finite r ∧ (signedInfinity c).neg ≠ finite r := by
    unfold signedInfinity
    split
    · exact ⟨nofun, nofun⟩
    · split <;> exact ⟨nofun, nofun⟩
  cases a with
  | finite u => exact ⟨u, rfl⟩
  | infinity => exact absurd product signed.1
  | negInfinity => exact absurd product signed.2
  | undefined => cases product

theorem of_sum_eq_finite {values : List Extended} {r : ℚ} (sum : Scalar.sum values = finite r) :
    ∀ a ∈ values, ∃ u, a = finite u := by
  have each : ∀ (values : List Extended) start r, values.foldl (· + ·) start = finite r →
      (∃ u, start = finite u) ∧ ∀ a ∈ values, ∃ u, a = finite u := by
    intro values
    induction values with
    | nil => exact fun start r sum => ⟨⟨r, sum⟩, nofun⟩
    | cons value rest ih =>
      intro start r sum
      obtain ⟨⟨u, first⟩, later⟩ := ih _ r sum
      obtain ⟨known, here⟩ := of_add_eq_finite first
      exact ⟨known, List.forall_mem_cons.mpr ⟨here, later⟩⟩
  exact (each values _ r sum).2

end Extended

theorem Tolerance.of_areEqual_finite {t : Tolerance Extended} {epsilon : ℚ}
    (same : t.epsilon = finite epsilon) {a : Extended} {r : ℚ}
    (equal : t.areEqual a (finite r) = true) : ∃ u, a = finite u := by
  cases a with
  | finite u => exact ⟨u, rfl⟩
  | infinity | negInfinity | undefined =>
    simp only [areEqual, same] at equal
    cases equal

/-- No equation and no ReLU is about the variable. -/
def Query.Loose (q : Query Extended) (v : Variable) : Prop :=
  (∀ e ∈ q.equations, ¬ e.Mentions v) ∧ ∀ r ∈ q.relus, r.b ≠ v ∧ r.f ≠ v

namespace Equation

theorem residual_congr {e : Equation Extended} {x y : Variable → ℚ}
    (same : ∀ v, e.Mentions v → x v = y v) : e.residual x = e.residual y := by
  unfold residual left
  congr 2
  apply List.map_congr_left
  intro a member
  rw [same a.var ⟨a, member, rfl⟩]

namespace WellFormed

variable {e : Equation Extended} (formed : e.WellFormed) {values : Assignment Extended}
include formed

theorem evaluate_eq {x : Variable → ℚ} (given : ∀ v, e.Mentions v → values[v]? = some (finite (x v))) :
    e.evaluate values = .ok (finite (e.left x)) := by
  have products : e.addends.mapM (fun a => do
      return a.coefficient * (← fetch values a.var)) =
      (.ok (e.addends.map fun a => a.coefficient * finite (x a.var)) : Except Fault _) := by
    apply mapM_pure
    intro a member
    rw [fetch_eq_ok.mpr (given a.var ⟨a, member, rfl⟩)]
    rfl
  rw [evaluate, products, ← formed.sum_eq]
  rfl

theorem of_evaluate {r : ℚ} (evaluated : e.evaluate values = .ok (finite r)) :
    ∀ v, e.Mentions v → ∃ u, values[v]? = some (finite u) := by
  obtain ⟨products, each, sum⟩ := bind_eq_ok.mp evaluated
  rintro v ⟨a, member, rfl⟩
  obtain ⟨product, inside, made⟩ := forall₂_mem_right (mapM_forall₂ each).flip member
  obtain ⟨value, fetched, made⟩ := bind_eq_ok.mp made
  obtain ⟨u, shape⟩ := of_sum_eq_finite (Except.ok.inj sum) product inside
  have rational : a.coefficient * value = finite u := (Except.ok.inj made).trans shape
  rw [formed.coefficient_eq member] at rational
  obtain ⟨w, rfl⟩ := of_mul_eq_finite rational
  exact ⟨w, fetch_eq_ok.mp fetched⟩

/-- The test of an equation is about rational values that satisfy it up to the tolerance. -/
theorem isSatisfied_iff {t : Tolerance Extended} {epsilon : ℚ} (same : t.epsilon = finite epsilon)
    (positive : 0 ≤ epsilon) :
    e.isSatisfied values t = .ok true ↔ ∃ x : Variable → ℚ,
      (∀ v, e.Mentions v → values[v]? = some (finite (x v))) ∧ |e.residual x| ≤ epsilon := by
  constructor
  · intro satisfied
    obtain ⟨sum, evaluated, accepted⟩ := bind_eq_ok.mp satisfied
    have equal := Except.ok.inj accepted
    rw [formed.scalar_eq] at equal
    obtain ⟨r, rfl⟩ := Tolerance.of_areEqual_finite same equal
    have given : ∀ v, e.Mentions v → values[v]? = some (finite ((values[v]?).getD undefined).toRat) := by
      intro v said
      obtain ⟨u, found⟩ := formed.of_evaluate evaluated v said
      rw [found]
      rfl
    refine ⟨_, given, ?_⟩
    obtain rfl := finite.inj (Except.ok.inj (evaluated.symm.trans (formed.evaluate_eq given)))
    exact (Tolerance.areEqual_finite same positive).mp equal
  · rintro ⟨x, given, near⟩
    refine bind_eq_ok.mpr ⟨_, formed.evaluate_eq given, ?_⟩
    rw [formed.scalar_eq]
    exact congrArg Except.ok ((Tolerance.areEqual_finite same positive).mpr near)

end WellFormed

end Equation

end ReluSolver
