import Mathlib.Order.WithBot
import ReluSolver.Proofs.StoreNarrowing

/-! All numbers but the undefined one are ordered totally. Comparisons, maxima and minima
of them are those of their positions in a linear order, and comparing with zero up to a
tolerance is comparing with the tolerance. -/

namespace ReluSolver

namespace Extended

/-- The place of a number among all numbers. The undefined one has none of its own. -/
def position : Extended → WithBot (WithTop ℚ)
  | negInfinity | undefined => ⊥
  | finite x => ((x : WithTop ℚ) : WithBot (WithTop ℚ))
  | infinity => ((⊤ : WithTop ℚ) : WithBot (WithTop ℚ))

variable {x y : Extended}

theorem finite_defined (r : ℚ) : finite r ≠ undefined := nofun

theorem zero_defined : (0 : Extended) ≠ undefined := zero_eq ▸ finite_defined 0

theorem lt_iff_position (defined : x ≠ undefined) (defined' : y ≠ undefined) :
    x < y ↔ x.position < y.position := by
  cases x <;> cases y <;>
    first
    | exact absurd rfl defined
    | exact absurd rfl defined'
    | exact iff_of_true rfl (WithBot.coe_lt_coe.mpr (WithTop.coe_lt_top _))
    | exact iff_of_true rfl (WithBot.bot_lt_coe _)
    | exact iff_of_false Bool.false_ne_true (by simp [position])
    | simp [position]

theorem le_iff_position (defined : x ≠ undefined) (defined' : y ≠ undefined) :
    x ≤ y ↔ x.position ≤ y.position := by
  cases x <;> cases y <;>
    first
    | exact absurd rfl defined
    | exact absurd rfl defined'
    | exact iff_of_true rfl bot_le
    | exact iff_of_true rfl le_top
    | exact iff_of_false Bool.false_ne_true (by simp [position])
    | simp [position]

theorem finite_le_position {x y : ℚ} (ordered : x ≤ y) :
    (finite x).position ≤ (finite y).position :=
  (le_iff_position (finite_defined x) (finite_defined y)).mp (le_finite.mpr ordered)

theorem not_lt_of_le (ordered : x ≤ y) : ¬ y < x := by
  by_cases defined : x = undefined
  · exact fun _ => not_undefined_le (defined ▸ ordered)
  by_cases defined' : y = undefined
  · exact fun _ => not_le_undefined (defined' ▸ ordered)
  rw [lt_iff_position defined' defined, not_lt]
  exact (le_iff_position defined defined').mp ordered

theorem isUndefined_eq_false (defined : x ≠ undefined) : Scalar.isUndefined x = false := by
  cases x with
  | undefined => exact absurd rfl defined
  | finite r => simp
  | negInfinity | infinity => rfl

theorem max_defined (defined : x ≠ undefined) : Scalar.max x y ≠ undefined := by
  simp only [Scalar.max, isUndefined_eq_false defined, Bool.false_eq_true, if_false]
  split
  next less => exact fun same => not_lt_undefined x (same ▸ less)
  next => exact defined

theorem min_defined (defined : x ≠ undefined) : Scalar.min x y ≠ undefined := by
  simp only [Scalar.min, isUndefined_eq_false defined, Bool.false_eq_true, if_false]
  split
  next less => exact fun same => not_undefined_lt x (same ▸ less)
  next => exact defined

theorem position_max (defined : x ≠ undefined) (defined' : y ≠ undefined) :
    (Scalar.max x y).position = max x.position y.position := by
  simp only [Scalar.max, isUndefined_eq_false defined, Bool.false_eq_true, if_false]
  split
  next less => exact (max_eq_right ((lt_iff_position defined defined').mp less).le).symm
  next other =>
    exact (max_eq_left (not_lt.mp fun less =>
      other ((lt_iff_position defined defined').mpr less))).symm

theorem position_min (defined : x ≠ undefined) (defined' : y ≠ undefined) :
    (Scalar.min x y).position = min x.position y.position := by
  simp only [Scalar.min, isUndefined_eq_false defined, Bool.false_eq_true, if_false]
  split
  next less => exact (min_eq_right ((lt_iff_position defined' defined).mp less).le).symm
  next other =>
    exact (min_eq_left (not_lt.mp fun less =>
      other ((lt_iff_position defined' defined).mpr less))).symm

end Extended

open Extended

namespace Tolerance

variable {t : Tolerance Extended} {epsilon : ℚ} (same : t.epsilon = finite epsilon)
  (positive : 0 ≤ epsilon) (x : Extended)
include same positive

theorem ge_zero : t.ge x 0 = true ↔ finite (-epsilon) ≤ x := by
  rw [zero_eq, ge_eq_true same positive]
  cases x with
  | finite x => simp only [le_finite, neg_le_iff_add_nonneg]
  | negInfinity | undefined => exact iff_of_false id Bool.false_ne_true
  | infinity => exact iff_of_true trivial rfl

theorem le_zero : t.le x 0 = true ↔ x ≤ finite epsilon := by
  rw [zero_eq, le, ge_eq_true same positive]
  cases x with
  | finite x => simp only [le_finite, zero_add]
  | infinity | undefined => exact iff_of_false id Bool.false_ne_true
  | negInfinity => exact iff_of_true trivial rfl

end Tolerance

namespace Interval

def Defined (i : Interval Extended) : Prop := i.lower ≠ undefined ∧ i.upper ≠ undefined

theorem all_defined : (Interval.all : Interval Extended).Defined := by
  constructor <;> decide

theorem Defined.narrow {i : Interval Extended} (defined : i.Defined) (t : Tightening Extended) :
    (t.narrow i).Defined := by
  obtain ⟨side, var, value⟩ := t
  cases side with
  | lower => exact ⟨max_defined defined.1, defined.2⟩
  | upper => exact ⟨defined.1, min_defined defined.2⟩

end Interval

def Store.CellsDefined (cells : Array (Cell Extended)) : Prop :=
  ∀ (v : Nat) c, cells[v]? = some c → c.bounds.Defined

end ReluSolver
