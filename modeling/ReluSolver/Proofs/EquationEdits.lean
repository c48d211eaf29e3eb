import Mathlib.Logic.Function.Basic
import ReluSolver.Proofs.DerivedRows
import ReluSolver.Proofs.EquationTest

/-! However an equation is edited, it holds at most one term of a variable, none with a
zero coefficient, and its coefficients are what the edits come to. Edits that trade a
variable for its value, or for an equal variable, change neither side against the other. -/

namespace ReluSolver

open Extended

/-- A coefficient for every variable, and the right side. -/
structure LinearForm where
  coefficient : Variable → ℚ
  scalar : ℚ

/-- An edit of an equation. New names are given to all variables at once, and no two get the same. -/
inductive Edit where
  | add (coefficient : ℚ) (v : Variable)
  | setScalar (scalar : ℚ)
  | fix (v : Variable) (value : ℚ)
  | merge (source target : Variable)
  | rename (name : Variable → Variable) (injective : Function.Injective name)

namespace Edit

def perform (e : Equation Extended) : Edit → Equation Extended
  | add coefficient v => e.add (finite coefficient) v
  | setScalar scalar => { e with scalar := finite scalar }
  | fix v value => e.fix v (finite value)
  | merge source target => e.merge source target
  | rename name _ => (e.rename fun v => .ok (name v)).1

/-- What an edit comes to, whatever terms there are. -/
noncomputable def onForm (form : LinearForm) : Edit → LinearForm
  | add coefficient v =>
    { form with coefficient := fun w => form.coefficient w + if w = v then coefficient else 0 }
  | setScalar scalar => { form with scalar := scalar }
  | fix v value =>
    { coefficient := fun w => if w = v then 0 else form.coefficient w
      scalar := form.scalar - form.coefficient v * value }
  | merge source target =>
    { form with coefficient := fun w =>
        (if w = source then 0 else form.coefficient w) +
          if w = target then form.coefficient source else 0 }
  | rename name _ => { form with coefficient := Function.extend name form.coefficient 0 }

end Edit

namespace Equation

variable {e : Equation Extended}

theorem contains_iff {v : Variable} : e.contains v = true ↔ e.Mentions v := by
  simp [contains, Mentions]

section Rates

theorem rate_of_not_mentions {v : Variable} (absent : ¬ e.Mentions v) : e.rate v = 0 := by
  have none : e.addends.find? (·.var == v) = none :=
    List.find?_eq_none.mpr fun a member same => absent ⟨a, member, by simpa using same⟩
  simp [rate, coefficientOf, none]

theorem WellFormed.left_single (formed : e.WellFormed) (v : Variable) :
    e.left (Pi.single v 1) = e.rate v := by
  obtain ⟨n, known⟩ : ∃ n, ∀ a ∈ e.addends, a.var < n :=
    ⟨(e.addends.map (·.var)).sum + 1, fun a member =>
      Nat.lt_succ_of_le (List.le_sum_of_mem (List.mem_map_of_mem member))⟩
  rw [formed.left_eq_sum (n := max n (v + 1)) (fun a member => lt_max_of_lt_left (known a member)),
    Finset.sum_eq_single v]
  · rw [Pi.single_eq_same, mul_one]
  · intro w _ other
    rw [Pi.single_eq_of_ne other, mul_zero]
  · intro absent
    exact absurd (Finset.mem_range.mpr (lt_max_of_lt_right (Nat.lt_succ_self v))) absent

theorem WellFormed.rate_add (formed : e.WellFormed) (c : ℚ) (v w : Variable) :
    (e.add (finite c) v).rate w = e.rate w + if w = v then c else 0 := by
  rw [← (formed.add c v).left_single, formed.left_add, formed.left_single]
  by_cases same : w = v
  · rw [same, Pi.single_eq_same, mul_one, if_pos rfl]
  · rw [Pi.single_eq_of_ne (Ne.symm same), mul_zero, if_neg same]

theorem takeOut_rate {v : Variable} (formed : e.WellFormed) {c : Extended}
    {rest : List (Addend Extended)} (taken : takeOut v e.addends = some (c, rest)) (w : Variable) :
    c = finite (e.rate v) ∧ rate ⟨rest, e.scalar⟩ w = if w = v then 0 else e.rate w := by
  obtain ⟨shape, others, -, left, mentions⟩ :=
    takeOut_spec (show WellFormed ⟨e.addends, e.scalar⟩ from formed) taken
  have absent : rate ⟨rest, e.scalar⟩ v = 0 :=
    rate_of_not_mentions fun said => ((mentions v).mp said).1 rfl
  have single : ∀ w, e.rate w =
      c.toRat * (Pi.single w 1 : Variable → ℚ) v + rate ⟨rest, e.scalar⟩ w := by
    intro w
    rw [← formed.left_single, ← others.left_single]
    exact left (Pi.single w 1)
  constructor
  · rw [single v, absent, Pi.single_eq_same, mul_one, add_zero]
    exact shape
  · split
    next same => rw [same, absent]
    next other =>
      rw [single w, Pi.single_eq_of_ne (Ne.symm other), mul_zero, zero_add]

theorem takeOut_none_rate {v : Variable} (absent : takeOut v e.addends = none) : e.rate v = 0 :=
  rate_of_not_mentions fun said => takeOut_eq_none absent (List.mem_map.mpr said)

end Rates

theorem renameAddends_total (name : Variable → Variable) (addends : List (Addend Extended)) :
    renameAddends (fun v => .ok (name v)) addends =
      (addends.map fun a => { a with var := name a.var }, .ok ()) := by
  induction addends with
  | nil => rfl
  | cons a rest ih => simp only [renameAddends, ih, List.map_cons]

theorem rename_total (name : Variable → Variable) (e : Equation Extended) :
    e.rename (fun v => .ok (name v)) = ((e.rename fun v => .ok (name v)).1, .ok ()) := by
  simp only [Equation.rename, renameAddends_total]

/-- An equation stands for a form: its terms are those with a coefficient, each of them once. -/
structure Represents (e : Equation Extended) (form : LinearForm) : Prop where
  formed : e.WellFormed
  rate : ∀ v, e.rate v = form.coefficient v
  right : e.right = form.scalar

theorem constant_represents (scalar : ℚ) : (constant (finite scalar)).Represents ⟨0, scalar⟩ where
  formed := constant_wellFormed scalar
  rate := fun _ => rate_of_not_mentions fun ⟨_, member, _⟩ => List.not_mem_nil member
  right := rfl

namespace Represents

variable {form : LinearForm} (represents : e.Represents form)
include represents

theorem add (c : ℚ) (v : Variable) :
    (e.add (finite c) v).Represents (Edit.onForm form (.add c v)) where
  formed := represents.formed.add c v
  rate := fun w => by rw [represents.formed.rate_add, represents.rate]; rfl
  right := represents.right

theorem setScalar (scalar : ℚ) :
    Represents { e with scalar := finite scalar } (Edit.onForm form (.setScalar scalar)) where
  formed := ⟨represents.formed.distinct, represents.formed.coefficients, scalar, rfl⟩
  rate := represents.rate
  right := rfl

theorem fix (v : Variable) (value : ℚ) :
    (e.fix v (finite value)).Represents (Edit.onForm form (.fix v value)) := by
  refine ⟨(represents.formed.fix_spec v value).1, fun w => ?_, ?_⟩
  all_goals unfold Equation.fix; split
  next c rest taken =>
    exact (takeOut_rate represents.formed taken w).2.trans (by rw [represents.rate]; rfl)
  next absent =>
    simp only [Edit.onForm]
    split
    next same => rw [same, takeOut_none_rate absent]
    next => exact represents.rate w
  next c rest taken =>
    have shape := (takeOut_rate represents.formed taken v).1
    rw [shape, represents.formed.scalar_eq, mul_finite, sub_finite, represents.rate,
      represents.right]
    rfl
  next absent =>
    have none := takeOut_none_rate absent
    rw [represents.rate] at none
    simp only [Edit.onForm]
    rw [none, zero_mul, sub_zero, represents.right]

theorem merge (source target : Variable) :
    (e.merge source target).Represents (Edit.onForm form (.merge source target)) := by
  unfold Equation.merge
  split
  next c rest taken =>
    have formed : WellFormed ⟨e.addends, e.scalar⟩ := represents.formed
    have others := (takeOut_spec formed taken).2.1
    have rates := takeOut_rate represents.formed taken
    rw [(rates source).1]
    refine ⟨others.add _ target, fun w => ?_, represents.right⟩
    refine (others.rate_add (e.rate source) target w).trans ?_
    rw [(rates w).2, represents.rate, represents.rate]
    rfl
  next absent =>
    have none := takeOut_none_rate absent
    refine ⟨represents.formed, fun w => ?_, represents.right⟩
    rw [represents.rate] at none
    simp only [Edit.onForm, none, ite_self, add_zero]
    split
    next same => rw [same, represents.rate, none]
    next => exact represents.rate w

theorem rename {name : Variable → Variable} (injective : Function.Injective name) :
    (e.rename fun v => .ok (name v)).1.Represents (Edit.onForm form (.rename name injective)) := by
  obtain ⟨formed, value, mentions⟩ := represents.formed.rename_spec (rename_total name e)
    fun u v i first second => injective (Except.ok.inj (first.trans second.symm))
  have right : (e.rename fun v => .ok (name v)).1.right = e.right := rfl
  refine ⟨formed, fun w => ?_, right.trans represents.right⟩
  by_cases named : ∃ v, name v = w
  · obtain ⟨v, rfl⟩ := named
    have same := value (Pi.single v 1) (Pi.single (name v) 1) fun u i renamed => by
      rw [← Except.ok.inj renamed]
      exact Pi.single_apply (name v) 1 (name u) |>.trans
        ((if_congr injective.eq_iff rfl rfl).trans (Pi.single_apply v 1 u).symm)
    rw [residual, residual, right, sub_left_inj, formed.left_single,
      represents.formed.left_single, represents.rate] at same
    exact same.trans (injective.extend_apply _ _ v).symm
  · have unsaid : ¬ (e.rename fun v => .ok (name v)).1.Mentions w := fun said => by
      obtain ⟨v, -, renamed⟩ := (mentions w).mp said
      exact named ⟨v, Except.ok.inj renamed⟩
    rw [rate_of_not_mentions unsaid]
    exact (Function.extend_apply' form.coefficient (0 : Variable → ℚ) w named).symm

theorem perform (edit : Edit) : (edit.perform e).Represents (edit.onForm form) := by
  cases edit with
  | add c v => exact represents.add c v
  | setScalar scalar => exact represents.setScalar scalar
  | fix v value => exact represents.fix v value
  | merge source target => exact represents.merge source target
  | rename name injective => exact represents.rename injective

theorem performAll (edits : List Edit) :
    (edits.foldl Edit.perform e).Represents (edits.foldl Edit.onForm form) := by
  induction edits generalizing e form with
  | nil => exact represents
  | cons edit rest ih => exact ih (represents.perform edit)

end Represents

section Meaning

def excess (e : Equation Extended) (values : Array ℚ) : Except Fault Extended :=
  return (← e.evaluate (values.map finite)) - e.scalar

def Covered (e : Equation Extended) (values : Array ℚ) : Prop := ∀ v, e.Mentions v → v < values.size

/-- The values as a function, which is zero where there are none. -/
def valueAt (values : Array ℚ) (v : Variable) : ℚ := values.getD v 0

variable {values : Array ℚ} {v : Variable} {x : ℚ}

theorem valueAt_eq (given : values[v]? = some x) : valueAt values v = x := by
  rw [valueAt, Array.getD_eq_getD_getElem?, given, Option.getD_some]

variable (formed : e.WellFormed) (covered : e.Covered values)
include formed covered

theorem WellFormed.evaluate_covered :
    e.evaluate (values.map finite) = .ok (finite (e.left (valueAt values))) := by
  refine formed.evaluate_eq fun v said => ?_
  have known := covered v said
  simp [valueAt, known]

theorem WellFormed.excess_covered :
    e.excess values = .ok (finite (e.residual (valueAt values))) := by
  rw [excess, formed.evaluate_covered covered, formed.scalar_eq]
  exact congrArg Except.ok (sub_finite _ _)

/-- An edit that keeps the residual, and brings in no variable without a value, keeps the excess. -/
theorem WellFormed.excess_kept {f : Equation Extended} (formed' : f.WellFormed)
    (covered' : f.Covered values)
    (kept : f.residual (valueAt values) = e.residual (valueAt values)) :
    ∃ r : ℚ, e.excess values = .ok (finite r) ∧ f.excess values = .ok (finite r) :=
  ⟨_, formed.excess_covered covered, by rw [formed'.excess_covered covered', kept]⟩

end Meaning

/-- What is true of an equation that was edited, where the edits came to `form`. -/
structure Edited (e : Equation Extended) (form : LinearForm) : Prop where
  distinct : (e.addends.map (·.var)).Nodup
  nonzero : ∀ a ∈ e.addends, ∃ c : ℚ, c ≠ 0 ∧ a.coefficient = finite c
  coefficient : ∀ v, e.coefficientOf v = finite (form.coefficient v)
  scalar : e.scalar = finite form.scalar
  evaluate : ∀ values, e.Covered values → e.evaluate (values.map finite) =
    .ok (finite (∑ v ∈ Finset.range values.size, form.coefficient v * valueAt values v))
  /-- A term that is added counts with the value of its variable. -/
  add : ∀ (c : ℚ) v values x, e.Covered values → values[v]? = some x →
    ∃ r : ℚ, e.evaluate (values.map finite) = .ok (finite r) ∧
      (e.add (finite c) v).evaluate (values.map finite) = .ok (finite (r + c * x))
  /-- A variable may be fixed at its value, and is then gone. -/
  fix : ∀ v values x, e.Covered values → values[v]? = some x →
    ∃ r : ℚ, e.excess values = .ok (finite r) ∧ (e.fix v (finite x)).excess values = .ok (finite r)
  fixed : ∀ v (x : ℚ), (e.fix v (finite x)).contains v = false
  /-- A variable may be merged into one with the same value, and is then gone. -/
  merge : ∀ source target values, e.Covered values → values[source]? = values[target]? →
    ∃ r : ℚ, e.excess values = .ok (finite r) ∧
      (e.merge source target).excess values = .ok (finite r)
  merged : ∀ source target, source ≠ target → (e.merge source target).contains source = false

theorem Represents.edited {form : LinearForm} (represents : e.Represents form) : e.Edited form := by
  have formed := represents.formed
  refine {
    distinct := formed.distinct
    nonzero := formed.coefficients
    coefficient := fun v => (formed.coefficientOf_eq v).trans (by rw [represents.rate])
    scalar := formed.scalar_eq.trans (by rw [represents.right])
    evaluate := ?evaluate
    add := ?add
    fix := ?fix
    fixed := ?fixed
    merge := ?merge
    merged := ?merged }
  case evaluate =>
    intro values covered
    rw [formed.evaluate_covered covered,
      formed.left_eq_sum fun a member => covered a.var ⟨a, member, rfl⟩]
    simp only [represents.rate]
  case add =>
    intro c v values x covered given
    refine ⟨_, formed.evaluate_covered covered, ?_⟩
    rw [(formed.add c v).evaluate_covered, formed.left_add, valueAt_eq given]
    intro w said
    rcases add_mentions said with rfl | old
    · exact (Array.getElem?_eq_some_iff.mp given).1
    · exact covered w old
  case fix =>
    intro v values x covered given
    obtain ⟨formed', kept, mentions⟩ := formed.fix_spec v x
    exact formed.excess_kept covered formed' (fun w said => covered w ((mentions w).mp said).2)
      (kept _ (valueAt_eq given))
  case fixed =>
    intro v x
    rw [← Bool.not_eq_true, contains_iff, ((formed.fix_spec v x).2.2 v)]
    exact fun said => said.1 rfl
  case merge =>
    intro source target values covered same
    obtain ⟨formed', kept, known⟩ := formed.merge_kept source target
    refine formed.excess_kept covered formed' (fun w said => ?_) (kept _ ?_)
    · rcases known w said with old | ⟨rfl, old⟩
      · exact covered w old
      · have given := Array.getElem?_eq_getElem (covered source old)
        exact (Array.getElem?_eq_some_iff.mp (same.symm.trans given)).1
    · simp only [valueAt, Array.getD_eq_getD_getElem?, same]
  case merged =>
    intro source target apart
    rw [← Bool.not_eq_true, contains_iff]
    exact fun said => ((formed.merge_spec apart).2.2.1 source said).1 rfl

/-- However an equation is edited from a constant on, it keeps one term for each of its variables,
with the coefficient that the edits come to, and the next edit does to its value what it says. -/
theorem edits_represent (scalar : ℚ) (edits : List Edit) :
    (edits.foldl Edit.perform (constant (finite scalar))).Edited
      (edits.foldl Edit.onForm ⟨0, scalar⟩) :=
  ((constant_represents scalar).performAll edits).edited

/-- Two opposite terms are merged away, and of the two that come later, under new names, one is
fixed. -/
theorem edits_represent_cancelled :
    let edits : List Edit := [.add 1 0, .add (-1) 1, .add 2 2, .merge 1 0, .add 3 0,
      .rename (· + 1) (add_left_injective 1), .fix 3 5]
    let e := edits.foldl Edit.perform (constant (finite 4))
    e.addends.map (fun a => (a.coefficient, a.var)) = [(finite 3, 1)] ∧ e.scalar = finite (-6) ∧
      e.Edited (edits.foldl Edit.onForm ⟨0, 4⟩) := by
  intro edits e
  have evaluated : e.addends.map (fun a => (a.coefficient, a.var)) = [(finite 3, 1)] ∧
      e.scalar = finite (-6) := by
    decide +kernel
  exact ⟨evaluated.1, evaluated.2, edits_represent 4 edits⟩

end Equation

end ReluSolver
