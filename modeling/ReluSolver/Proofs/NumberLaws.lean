import Mathlib
import ReluSolver.Number.Double
import ReluSolver.Proofs.NumberOrder

/-! What the solver takes for granted about the numbers that it compares, for doubles
as well as in exact arithmetic. Doubles are compared by their unpacked form: the class
of the number, then its exponent, then its mantissa, the latter two the other way around
below zero. -/

namespace ReluSolver

/-- Comparisons order the defined numbers, and the interval of all numbers is not empty. -/
class LawfulScalar (α : Type) [Scalar α] : Prop where
  lt_defined {x y : α} : x < y → Scalar.isUndefined x = false ∧ Scalar.isUndefined y = false
  lt_irrefl (x : α) : ¬ x < x
  lt_trans {x y z : α} : x < y → y < z → x < z
  infinity_defined : Scalar.isUndefined (Scalar.infinity : α) = false
  negInfinity_defined : Scalar.isUndefined (-Scalar.infinity : α) = false
  all_consistent {epsilon : α} {t : Tolerance α} (valid : Tolerance.ofEpsilon epsilon = .ok t) :
    t.ge Scalar.infinity (-Scalar.infinity) = true

theorem Extended.defined_of_lt {x y : Extended} (less : x < y) : x ≠ undefined ∧ y ≠ undefined :=
  ⟨fun same => not_undefined_lt y (same ▸ less), fun same => not_lt_undefined x (same ▸ less)⟩

instance : LawfulScalar Extended where
  lt_defined less :=
    have defined := Extended.defined_of_lt less
    ⟨Extended.isUndefined_eq_false defined.1, Extended.isUndefined_eq_false defined.2⟩
  lt_irrefl x less := by
    have defined := (Extended.defined_of_lt less).1
    exact lt_irrefl _ ((Extended.lt_iff_position defined defined).mp less)
  lt_trans {x y z} first second := by
    have ⟨left, middle⟩ := Extended.defined_of_lt first
    have right := (Extended.defined_of_lt second).2
    rw [Extended.lt_iff_position left right]
    exact ((Extended.lt_iff_position left middle).mp first).trans
      ((Extended.lt_iff_position middle right).mp second)
  infinity_defined := rfl
  negInfinity_defined := rfl
  all_consistent {epsilon t} valid := by
    obtain ⟨rfl, r, rfl, -⟩ := Tolerance.ofEpsilon_valid valid
    exact Bool.or_eq_true_iff.mpr (.inr (decide_eq_true (Extended.finite_le_infinity (-r))))

namespace Double

open Float.Model Float.Model.UnpackedFloat

/-- The place of a double among all others, whose first part is its class. NaN has none of its
own. -/
def place : UnpackedFloat → ℤ ×ₗ ℤ ×ₗ ℤ
  | .infinity .negative => toLex (-2, toLex (0, 0))
  | .finite .negative mantissa exponent _ => toLex (-1, toLex (-exponent, -mantissa))
  | .zero _ | .notANumber => toLex (0, toLex (0, 0))
  | .finite .positive mantissa exponent _ => toLex (1, toLex (exponent, mantissa))
  | .infinity .positive => toLex (2, toLex (0, 0))

theorem lt_iff_place (u w : UnpackedFloat) :
    u.lt w = true ↔ u ≠ .notANumber ∧ w ≠ .notANumber ∧ place u < place w := by
  have signs : compare Sign.negative Sign.negative = .eq ∧
      compare Sign.negative Sign.positive = .lt ∧ compare Sign.positive Sign.negative = .gt ∧
      compare Sign.positive Sign.positive = .eq :=
    ⟨rfl, rfl, rfl, rfl⟩
  rcases u with (_ | _) | _ | _ | ⟨_ | _, mantissa, exponent, _⟩ <;>
    rcases w with (_ | _) | _ | _ | ⟨_ | _, mantissa', exponent', _⟩ <;>
    simp [UnpackedFloat.lt, UnpackedFloat.compare, place, Prod.Lex.toLex_lt_toLex, signs,
      Ordering.then_eq_lt, Ordering.then_eq_gt, compare_lt_iff_lt, compare_gt_iff_gt]

theorem le_infinity {u : UnpackedFloat} (number : u ≠ .notANumber) :
    u.le (.infinity .positive) = true := by
  rcases u with (_ | _) | _ | _ | _
  case notANumber => exact absurd rfl number
  all_goals rfl

theorem number_of_le {u w : UnpackedFloat} (ordered : u.le w = true) : w ≠ .notANumber := by
  rintro rfl
  cases u <;> cases ordered

theorem lt_iff {x y : Float} : x < y ↔ x.toModel.unpack.lt y.toModel.unpack = true :=
  decide_eq_true_iff

theorem le_iff {x y : Float} : x ≤ y ↔ x.toModel.unpack.le y.toModel.unpack = true :=
  decide_eq_true_iff

theorem isUndefined_iff {x : Float} :
    Scalar.isUndefined x = false ↔ x.toModel.unpack ≠ .notANumber := by
  have itself : (x == x) = true ↔ x.toModel.unpack ≠ .notANumber :=
    (beq_iff_ne_notANumber_and_eq x.toModel.unpack x.toModel.unpack).trans
      ⟨fun same => same.1, fun number => ⟨number, number, .inl rfl⟩⟩
  rw [Scalar.isUndefined, Bool.not_eq_false']
  exact itself

theorem unpack_neg {spec : Float.Model.Format} (wide : 2 ≤ spec.exponentBits)
    {b : BitVec spec.numBits} (number : unpack spec b ≠ .notANumber) :
    unpack spec ((unpack spec b).neg.pack spec) = (unpack spec b).neg := by
  have flipped : unpack spec (packComponents spec (-Sign.ofBitVec (unpackSign b)) (unpackExponent b)
      (unpackMantissa b)) = (unpack spec b).neg := by
    simp only [UnpackedFloat.unpack, unpackSign_packComponents, unpackExponent_packComponents,
      unpackMantissa_packComponents, Sign.ofBitVec_toBitVec]
    split
    · split <;> rfl
    · split
      · split <;> rfl
      · rfl
  have valid : isNaNBits (packComponents spec (-Sign.ofBitVec (unpackSign b)) (unpackExponent b)
      (unpackMantissa b)) = false := by
    rw [isNaNBits, unpackExponent_packComponents, unpackMantissa_packComponents]
    refine decide_eq_false fun both => number ?_
    rw [UnpackedFloat.unpack, if_pos both.1, if_neg both.2]
  rw [← flipped, pack_unpack _ wide, valid]
  rfl

theorem neg_number {x : Float} (number : x.toModel.unpack ≠ .notANumber) :
    (-x).toModel.unpack ≠ .notANumber := by
  have same : (-x).toModel.unpack = x.toModel.unpack.neg := unpack_neg (by decide) number
  rw [same]
  cases shape : x.toModel.unpack with
  | notANumber => exact absurd shape number
  | infinity | zero | finite => nofun

instance : LawfulScalar Float where
  lt_defined {x y} less := by
    obtain ⟨left, right, -⟩ := (lt_iff_place _ _).mp (lt_iff.mp less)
    exact ⟨isUndefined_iff.mpr left, isUndefined_iff.mpr right⟩
  lt_irrefl x less := by
    obtain ⟨-, -, less⟩ := (lt_iff_place _ _).mp (lt_iff.mp less)
    exact lt_irrefl _ less
  lt_trans {x y z} first second := by
    obtain ⟨left, -, first⟩ := (lt_iff_place _ _).mp (lt_iff.mp first)
    obtain ⟨-, right, second⟩ := (lt_iff_place _ _).mp (lt_iff.mp second)
    exact lt_iff.mpr ((lt_iff_place _ _).mpr ⟨left, right, first.trans second⟩)
  infinity_defined := by decide +kernel
  negInfinity_defined := by decide +kernel
  all_consistent {epsilon t} valid := by
    unfold Tolerance.ofEpsilon at valid
    split at valid
    next finite =>
      obtain rfl := Except.ok.inj valid
      rw [Bool.and_eq_true] at finite
      have width : (Scalar.infinity : Float) - -Scalar.infinity = Scalar.infinity := by
        decide +kernel
      have unpacked : (Scalar.infinity : Float).toModel.unpack = .infinity .positive := by
        rfl
      refine Bool.or_eq_true_iff.mpr (.inr (decide_eq_true ?_))
      rw [width]
      refine le_iff.mpr ?_
      rw [unpacked]
      exact le_infinity (neg_number (number_of_le (le_iff.mp (of_decide_eq_true finite.2))))
    next => cases valid

end Double

end ReluSolver
