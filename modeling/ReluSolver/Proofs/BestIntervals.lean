import Mathlib.Data.List.Induction
import ReluSolver.Choice
import ReluSolver.Proofs.NumberOrder

/-! The best entry of a list, and the measures by which intervals are compared. A bounded interval
is as wide as it is long, and its polarity is its sum by its length; an unbounded one is wider
than any other, and its polarity is one. -/

namespace ReluSolver

open Extended

section FirstBest

variable {β : Type} {better : β → β → Bool} (atLeast : β → β → Prop)

/-- Where an entry is better if the other one is not at least as good, the chosen entry is at least as
good as all others, and better than those before it. -/
theorem firstBest?_spec (trans : ∀ {x y z}, atLeast x y → atLeast y z → atLeast x z)
    (total : ∀ x y, atLeast x y ∨ atLeast y x)
    (decides : ∀ x y, better x y = true ↔ ¬ atLeast y x) {items : List β} {best : β}
    (chosen : firstBest? better items = some best) :
    ∃ earlier later, items = earlier ++ best :: later ∧ (∀ x ∈ earlier, ¬ atLeast x best) ∧
      ∀ x ∈ items, atLeast best x := by
  cases items with
  | nil => cases chosen
  | cons start rest =>
    replace chosen : rest.foldl (fun best y => if better y best then y else best) start = best :=
      Option.some.inj chosen
    -- What comes last either replaces the entry chosen among the others, or is not needed.
    induction rest using List.reverseRecOn generalizing best with
    | nil =>
      subst chosen
      exact ⟨[], [], rfl, nofun, by simpa using total start start⟩
    | append_singleton rest y ih =>
      obtain ⟨earlier, later, shape, before, all⟩ := ih rfl
      rw [List.foldl_concat] at chosen
      rw [← List.cons_append]
      generalize rest.foldl (fun best y => if better y best then y else best) start = old at *
      split at chosen
      next improves =>
        subst chosen
        have worse := (decides y old).mp improves
        refine ⟨start :: rest, [], rfl, fun x member good => worse (trans (all x member) good), ?_⟩
        intro x member
        rcases List.mem_append.mp member with among | last
        · exact trans ((total _ _).resolve_left worse) (all x among)
        · obtain rfl := List.mem_singleton.mp last
          simpa using total x x
      next kept =>
        subst chosen
        have covers : atLeast old y := not_not.mp fun worse => kept ((decides y old).mpr worse)
        refine ⟨earlier, later ++ [y], by rw [shape]; simp, before, ?_⟩
        intro x member
        rcases List.mem_append.mp member with among | last
        · exact all x among
        · exact List.mem_singleton.mp last ▸ covers

end FirstBest

protected theorem Extended.le_total {x y : Extended} (defined : x ≠ undefined)
    (defined' : y ≠ undefined) : x ≤ y ∨ y ≤ x := by
  rw [le_iff_position defined defined', le_iff_position defined' defined]
  exact le_total _ _

namespace Interval

def Bounded (i : Interval Extended) : Prop := ∃ l u : ℚ, i = ⟨finite l, finite u⟩

variable {i : Interval Extended}

theorem bounded_iff : i.Bounded ↔ (Scalar.isFinite i.lower && Scalar.isFinite i.upper) = true := by
  obtain ⟨lower, upper⟩ := i
  simp only [Bounded, Bool.and_eq_true, isFinite_iff, Interval.mk.injEq]
  constructor
  · rintro ⟨l, u, lower, upper⟩
    exact ⟨⟨l, lower⟩, u, upper⟩
  · rintro ⟨⟨l, lower⟩, u, upper⟩
    exact ⟨l, u, lower, upper⟩

theorem width_unbounded (unbounded : ¬ i.Bounded) : i.width = infinity :=
  if_neg (unbounded ∘ bounded_iff.mpr)

theorem polarity_unbounded (unbounded : ¬ i.Bounded) : i.polarity = 1 := by
  rw [bounded_iff, Bool.not_eq_true, Bool.and_eq_false_iff] at unbounded
  refine if_pos ?_
  rcases unbounded with lower | upper
  · rw [lower]
    rfl
  · rw [upper]
    simp

theorem imbalance_unbounded (unbounded : ¬ i.Bounded) : Scalar.abs i.polarity = 1 := by
  rw [polarity_unbounded unbounded, one_eq, abs_finite, abs_of_pos one_pos]

theorem width_bounded (l u : ℚ) : width ⟨finite l, finite u⟩ = finite (u - l) := sub_finite u l

theorem polarity_bounded (l u : ℚ) :
    polarity ⟨finite l, finite u⟩ = finite (if u ≤ l then 1 else (l + u) / (u - l)) := by
  simp only [polarity, isFinite_finite, Bool.not_true, Bool.or_self, Bool.false_or, le_finite,
    decide_eq_true_eq]
  split
  next => exact one_eq
  next ordered =>
    rw [add_finite, sub_finite, div_finite _ (sub_ne_zero.mpr fun same => ordered same.le)]

theorem width_defined : i.width ≠ undefined := by
  by_cases bounded : i.Bounded
  · obtain ⟨l, u, rfl⟩ := bounded
    rw [width_bounded]
    exact finite_defined _
  · rw [width_unbounded bounded]
    nofun

theorem imbalance_defined : Scalar.abs i.polarity ≠ undefined := by
  by_cases bounded : i.Bounded
  · obtain ⟨l, u, rfl⟩ := bounded
    rw [polarity_bounded, abs_finite]
    exact finite_defined _
  · rw [imbalance_unbounded bounded, one_eq]
    exact finite_defined _

/-- No interval is wider than an unbounded one, and a bounded one than those that are at least as
long. -/
def NoWider (i j : Interval Extended) : Prop :=
  ∀ l u : ℚ, j = ⟨finite l, finite u⟩ → ∃ l' u' : ℚ, i = ⟨finite l', finite u'⟩ ∧ u' - l' ≤ u - l

theorem noWider_iff {i j : Interval Extended} : i.NoWider j ↔ i.width ≤ j.width := by
  by_cases bounded : j.Bounded
  · obtain ⟨l, u, rfl⟩ := bounded
    rw [width_bounded]
    constructor
    · intro noWider
      obtain ⟨l', u', rfl, shorter⟩ := noWider l u rfl
      rwa [width_bounded, le_finite]
    · intro narrow l₁ u₁ same
      cases same
      by_cases bounded' : i.Bounded
      · obtain ⟨l', u', rfl⟩ := bounded'
        rw [width_bounded, le_finite] at narrow
        exact ⟨l', u', rfl, narrow⟩
      · rw [width_unbounded bounded'] at narrow
        exact absurd narrow not_infinity_le_finite
  · rw [width_unbounded bounded]
    have greatest : infinity ≠ undefined := nofun
    exact iff_of_true (fun l u same => absurd ⟨l, u, same⟩ bounded)
      ((le_iff_position width_defined greatest).mpr le_top)

end Interval

end ReluSolver
