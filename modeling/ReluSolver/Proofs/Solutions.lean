import ReluSolver.Proofs.ExactNumbers
import ReluSolver.Query.Basic

/-! What a query asks for, said about rational assignments. The solver's own test
of an assignment agrees with it when numbers are compared as they are. -/

namespace ReluSolver

open Extended

namespace Tightening

def Holds (t : Tightening Extended) (x : Variable → ℚ) : Prop :=
  match t.side with
  | .lower => t.value ≤ finite (x t.var)
  | .upper => finite (x t.var) ≤ t.value

end Tightening

/-- The assignment is in the region of a split. -/
def CaseSplit.Holds (s : CaseSplit Extended) (x : Variable → ℚ) : Prop :=
  ∀ t ∈ s.tightenings, t.Holds x

theorem CaseSplit.empty_holds (x : Variable → ℚ) : CaseSplit.empty.Holds x := by
  intro t member
  simp [CaseSplit.empty] at member

theorem CaseSplit.extended_holds {s : CaseSplit Extended} {extra : List (Tightening Extended)}
    {x : Variable → ℚ} :
    (s.extended extra).Holds x ↔ s.Holds x ∧ ∀ t ∈ extra, t.Holds x := by
  simp only [CaseSplit.Holds, CaseSplit.extended, List.mem_append, or_imp, forall_and]

namespace Equation

/-- The terms are about different variables, and all numbers are rational. -/
structure WellFormed (e : Equation Extended) : Prop where
  distinct : (e.addends.map (·.var)).Nodup
  coefficients : ∀ a ∈ e.addends, ∃ r : ℚ, r ≠ 0 ∧ a.coefficient = finite r
  scalar : ∃ r : ℚ, e.scalar = finite r

theorem wellFormed_iff {e : Equation Extended} : e.WellFormed ↔ (e.addends.map (·.var)).Nodup ∧
    (∀ a ∈ e.addends, a.coefficient ≠ 0 ∧ Scalar.isFinite a.coefficient = true) ∧
      Scalar.isFinite e.scalar = true := by
  constructor
  · rintro ⟨distinct, coefficients, scalar⟩
    refine ⟨distinct, fun a member => ?_, isFinite_iff.mpr scalar⟩
    obtain ⟨r, nonzero, same⟩ := coefficients a member
    exact ⟨by simpa [same, zero_eq] using nonzero, isFinite_iff.mpr ⟨r, same⟩⟩
  · rintro ⟨distinct, coefficients, scalar⟩
    refine ⟨distinct, fun a member => ?_, isFinite_iff.mp scalar⟩
    obtain ⟨r, same⟩ := isFinite_iff.mp (coefficients a member).2
    exact ⟨r, by simpa [same, zero_eq] using (coefficients a member).1, same⟩

instance (e : Equation Extended) : Decidable e.WellFormed := decidable_of_iff _ wellFormed_iff.symm

def Holds (e : Equation Extended) (x : Variable → ℚ) : Prop :=
  Scalar.sum (e.addends.map fun a => a.coefficient * finite (x a.var)) = e.scalar

def left (e : Equation Extended) (x : Variable → ℚ) : ℚ :=
  (e.addends.map fun a => a.coefficient.toRat * x a.var).sum

def right (e : Equation Extended) : ℚ := e.scalar.toRat

namespace WellFormed

variable {e : Equation Extended} (formed : e.WellFormed)
include formed

theorem coefficient_eq {a : Addend Extended} (member : a ∈ e.addends) :
    a.coefficient = finite a.coefficient.toRat := by
  obtain ⟨r, -, same⟩ := formed.coefficients a member
  rw [same, toRat_finite]

theorem coefficient_ne_zero {a : Addend Extended} (member : a ∈ e.addends) :
    a.coefficient.toRat ≠ 0 := by
  obtain ⟨r, nonzero, same⟩ := formed.coefficients a member
  simpa [same] using nonzero

theorem scalar_eq : e.scalar = finite e.right := by
  obtain ⟨r, same⟩ := formed.scalar
  rw [right, same, toRat_finite]

theorem sum_eq (x : Variable → ℚ) :
    Scalar.sum (e.addends.map fun a => a.coefficient * finite (x a.var)) = finite (e.left x) := by
  have products : e.addends.map (fun a => a.coefficient * finite (x a.var)) =
      (e.addends.map fun a => a.coefficient.toRat * x a.var).map finite := by
    rw [List.map_map]
    apply List.map_congr_left
    intro a member
    rw [Function.comp_apply, ← mul_finite, ← formed.coefficient_eq member]
  rw [products, sum_finite, left]

theorem holds_iff {x : Variable → ℚ} : e.Holds x ↔ e.left x = e.right := by
  rw [Holds, formed.sum_eq, formed.scalar_eq, finite.injEq]

end WellFormed

end Equation

/-- The output is the greater one of the input and zero. -/
def Relu.Holds (r : Relu) (x : Variable → ℚ) : Prop := x r.f = max (x r.b) 0

namespace Query

/-- What a query promises: bounds that do not cross, equations in normal form, ReLUs between
different variables, and every input and output named once. -/
structure WellFormed (q : Query Extended) : Prop where
  bounds : ∀ v (known : v < q.size), q.bounds[v].lower ≤ q.bounds[v].upper
  equations : ∀ e ∈ q.equations, e.WellFormed
  relus : ∀ r ∈ q.relus, r.b ≠ r.f
  inputs : q.inputs.Nodup
  outputs : q.outputs.Nodup

/-- What building a query sees to. The bounds of a variable may still cross. -/
structure Regular (q : Query Extended) : Prop where
  bounds : ∀ v (known : v < q.size), q.bounds[v].lower ≠ undefined ∧ q.bounds[v].upper ≠ undefined
  equations : ∀ e ∈ q.equations, e.WellFormed
  relus : ∀ r ∈ q.relus, r.b ≠ r.f

theorem WellFormed.regular {q : Query Extended} (formed : q.WellFormed) : q.Regular := by
  refine ⟨fun v known => ?_, formed.equations, formed.relus⟩
  have ordered := formed.bounds v known
  constructor <;> intro shape <;> rw [shape] at ordered
  · exact not_undefined_le ordered
  · exact not_le_undefined ordered

instance (q : Query Extended) : Decidable q.WellFormed :=
  decidable_of_iff ((∀ v (known : v < q.size), q.bounds[v].lower ≤ q.bounds[v].upper) ∧
    (∀ e ∈ q.equations, e.WellFormed) ∧ (∀ r ∈ q.relus, r.b ≠ r.f) ∧ q.inputs.Nodup ∧ q.outputs.Nodup)
    ⟨fun ⟨bounds, equations, relus, inputs, outputs⟩ => ⟨bounds, equations, relus, inputs, outputs⟩,
      fun formed => ⟨formed.bounds, formed.equations, formed.relus, formed.inputs, formed.outputs⟩⟩

/-- An assignment that satisfies all bounds, equations and ReLUs. -/
structure Solution (q : Query Extended) (x : Variable → ℚ) : Prop where
  bounds : ∀ v (known : v < q.size), q.bounds[v].Contains (x v)
  equations : ∀ e ∈ q.equations, e.Holds x
  relus : ∀ r ∈ q.relus, r.Holds x

theorem allOf_eq_true {β : Type} {entries : List β} {check : β → Except Fault Bool} :
    allOf entries check = .ok true ↔ ∀ entry ∈ entries, check entry = .ok true := by
  induction entries with
  | nil => simp [allOf]
  | cons entry rest ih =>
    rw [List.forall_mem_cons, ← ih, allOf]
    cases check entry with
    | error cause => simp [bind, Except.bind]
    | ok accepted => cases accepted <;> simp [bind, Except.bind, pure, Except.pure]

theorem isSatisfiedBy_eq_true {q : Query Extended} {values : Assignment Extended}
    {t : Tolerance Extended} :
    q.isSatisfiedBy values t = .ok true ↔
      values.size = q.size ∧
      (∀ v (known : v < q.size) (given : v < values.size),
        t.within values[v] q.bounds[v].lower q.bounds[v].upper = true) ∧
      (∀ e ∈ q.equations, e.isSatisfied values t = .ok true) ∧
      (∀ r ∈ q.relus, r.isSatisfied values t = .ok true) := by
  by_cases sizes : values.size = q.size
  swap
  · simp [isSatisfiedBy, sizes, pure, Except.pure]
  have inBounds : (List.zip values.toList q.bounds.toList).all (fun (value, bounds) =>
      t.within value bounds.lower bounds.upper) = true ↔
      ∀ v (known : v < q.size) (given : v < values.size),
        t.within values[v] q.bounds[v].lower q.bounds[v].upper = true := by
    rw [List.all_eq_true]
    constructor
    · intro all v known given
      have member : (values[v], q.bounds[v]) ∈ List.zip values.toList q.bounds.toList := by
        rw [List.mem_iff_getElem]
        exact ⟨v, by simp [given, known], by simp⟩
      exact all _ member
    · intro all pair member
      obtain ⟨v, inside, rfl⟩ := List.mem_iff_getElem.mp member
      have known : v < values.size ∧ v < q.size := by simpa using inside
      simpa using all v known.2 known.1
  rw [← inBounds, ← allOf_eq_true, ← allOf_eq_true]
  simp only [isSatisfiedBy, sizes, true_and]
  cases (List.zip values.toList q.bounds.toList).all _ with
  | false => simp [pure, Except.pure]
  | true =>
    cases allOf q.equations _ with
    | error cause => simp [bind, Except.bind]
    | ok accepted => cases accepted <;> simp [bind, Except.bind, pure, Except.pure]

end Query

end ReluSolver
