import Mathlib.Algebra.BigOperators.Group.List.Basic
import Mathlib.Tactic.Linarith
import Mathlib.Tactic.Ring
import ReluSolver.Proofs.Solutions

/-! What the edits of an equation do to its two sides, and that they leave it in
normal form. -/

namespace ReluSolver

open Extended

namespace Equation

def residual (e : Equation Extended) (x : Variable → ℚ) : ℚ := e.left x - e.right

theorem WellFormed.holds_iff_residual {e : Equation Extended} (formed : e.WellFormed)
    {x : Variable → ℚ} : e.Holds x ↔ e.residual x = 0 := by
  rw [formed.holds_iff, residual, sub_eq_zero]

def Mentions (e : Equation Extended) (v : Nat) : Prop := ∃ a ∈ e.addends, a.var = v

theorem constant_wellFormed (c : ℚ) : (constant (finite c)).WellFormed where
  distinct := List.nodup_nil
  coefficients := by simp [constant]
  scalar := ⟨c, rfl⟩

theorem WellFormed.tail {a : Addend Extended} {rest : List (Addend Extended)} {scalar : Extended}
    (formed : WellFormed ⟨a :: rest, scalar⟩) : WellFormed ⟨rest, scalar⟩ where
  distinct := (List.nodup_cons.mp formed.distinct).2
  coefficients := fun b member => formed.coefficients b (List.mem_cons_of_mem _ member)
  scalar := formed.scalar

theorem left_cons (a : Addend Extended) (rest : List (Addend Extended)) (scalar : Extended)
    (x : Variable → ℚ) :
    left ⟨a :: rest, scalar⟩ x = a.coefficient.toRat * x a.var + left ⟨rest, scalar⟩ x := by
  simp [left]

theorem addTo_mentions {α : Type} [Scalar α] {c : α} {v : Nat} {addends : List (Addend α)}
    {a : Addend α} (member : a ∈ addTo c v addends) :
    a.var = v ∨ ∃ b ∈ addends, b.var = a.var := by
  induction addends with
  | nil =>
    simp only [addTo] at member
    split at member
    · cases member
    · rw [List.mem_singleton.mp member]
      exact .inl rfl
  | cons first rest ih =>
    simp only [addTo] at member
    split at member
    · split at member
      · exact .inr ⟨a, List.mem_cons_of_mem _ member, rfl⟩
      · rcases List.mem_cons.mp member with rfl | later
        · exact .inl rfl
        · exact .inr ⟨a, List.mem_cons_of_mem _ later, rfl⟩
    · rcases List.mem_cons.mp member with rfl | later
      · exact .inr ⟨a, by simp, rfl⟩
      · rcases ih later with same | ⟨b, found, same⟩
        · exact .inl same
        · exact .inr ⟨b, List.mem_cons_of_mem _ found, same⟩

/-- Folding a term in adds its value, and keeps the normal form. -/
theorem addTo_spec {addends : List (Addend Extended)} {scalar : Extended}
    (formed : WellFormed ⟨addends, scalar⟩) (c : ℚ) (v : Nat) :
    WellFormed ⟨addTo (finite c) v addends, scalar⟩ ∧ ∀ x : Variable → ℚ,
      left ⟨addTo (finite c) v addends, scalar⟩ x = left ⟨addends, scalar⟩ x + c * x v := by
  induction addends with
  | nil =>
    simp only [addTo, zero_eq, beq_finite, decide_eq_true_eq]
    split
    next zero => exact ⟨formed, fun x => by rw [zero, zero_mul, add_zero]⟩
    next nonzero =>
      refine ⟨⟨by simp, ?_, formed.scalar⟩, fun x => by rw [left_cons, toRat_finite, add_comm]⟩
      intro a member
      rw [List.mem_singleton.mp member]
      exact ⟨c, nonzero, rfl⟩
  | cons first rest ih =>
    obtain ⟨r, nonzero, same⟩ := formed.coefficients first (by simp)
    have apart : first.var ∉ rest.map (·.var) := (List.nodup_cons.mp formed.distinct).1
    simp only [addTo]
    split
    next here =>
      rw [same, add_finite, zero_eq, beq_finite]
      simp only [decide_eq_true_eq]
      split
      next zero =>
        refine ⟨formed.tail, fun x => ?_⟩
        rw [left_cons, same, toRat_finite, ← here, add_right_comm, ← add_mul, zero, zero_mul, zero_add]
      next other =>
        refine ⟨⟨?_, ?_, formed.scalar⟩, fun x => ?_⟩
        · rw [← here]
          exact formed.distinct
        · intro a member
          rcases List.mem_cons.mp member with rfl | later
          · exact ⟨r + c, other, rfl⟩
          · exact formed.coefficients a (List.mem_cons_of_mem _ later)
        · rw [left_cons, left_cons, same, toRat_finite, toRat_finite, here]
          ring
    next elsewhere =>
      obtain ⟨kept, value⟩ := ih formed.tail
      refine ⟨⟨?_, ?_, formed.scalar⟩, fun x => ?_⟩
      · refine List.nodup_cons.mpr ⟨fun member => ?_, kept.distinct⟩
        obtain ⟨a, found, equal⟩ := List.mem_map.mp member
        rcases addTo_mentions found with here | ⟨b, later, var⟩
        · exact elsewhere (equal.symm.trans here)
        · exact apart (List.mem_map.mpr ⟨b, later, var.trans equal⟩)
      · intro a member
        rcases List.mem_cons.mp member with rfl | later
        · exact ⟨r, nonzero, same⟩
        · exact kept.coefficients a later
      · rw [left_cons, left_cons, value, add_assoc]

theorem WellFormed.add {e : Equation Extended} (formed : e.WellFormed) (c : ℚ) (v : Nat) :
    (e.add (finite c) v).WellFormed := (addTo_spec formed c v).1

theorem WellFormed.left_add {e : Equation Extended} (formed : e.WellFormed) (c : ℚ) (v : Nat)
    (x : Variable → ℚ) : (e.add (finite c) v).left x = e.left x + c * x v :=
  (addTo_spec formed c v).2 x

theorem add_mentions {e : Equation Extended} {c : Extended} {v w : Nat}
    (mentions : (e.add c v).Mentions w) : w = v ∨ e.Mentions w := by
  obtain ⟨a, member, rfl⟩ := mentions
  exact addTo_mentions member

theorem mentions_cons {a : Addend Extended} {rest : List (Addend Extended)} {scalar : Extended}
    {w : Nat} : Mentions ⟨a :: rest, scalar⟩ w ↔ a.var = w ∨ Mentions ⟨rest, scalar⟩ w := by
  simp [Mentions]

section Variables

variable {α : Type}

def vars (e : Equation α) : List Variable := e.addends.map (·.var)

theorem takeOut_perm {v : Variable} {addends : List (Addend α)} {c : α} {rest : List (Addend α)}
    (taken : takeOut v addends = some (c, rest)) : addends.Perm (⟨c, v⟩ :: rest) := by
  induction addends generalizing rest with
  | nil => cases taken
  | cons first others ih =>
    simp only [takeOut] at taken
    split at taken
    next here =>
      obtain ⟨rfl, rfl⟩ : first.coefficient = c ∧ others = rest := by simpa using taken
      rw [← here]
    next elsewhere =>
      obtain ⟨⟨d, kept⟩, found, same⟩ := Option.map_eq_some_iff.mp taken
      obtain ⟨rfl, rfl⟩ : d = c ∧ first :: kept = rest := by simpa using same
      exact ((ih found).cons _).trans (List.Perm.swap _ _ _)

theorem takeOut_eq_none {v : Variable} {addends : List (Addend α)} (absent : takeOut v addends = none) :
    v ∉ addends.map (·.var) := by
  induction addends with
  | nil => exact List.not_mem_nil
  | cons first others ih =>
    simp only [takeOut] at absent
    split at absent
    · cases absent
    next elsewhere =>
      exact fun member => (List.mem_cons.mp member).elim (Ne.symm elsewhere) (ih (Option.map_eq_none_iff.mp absent))

variable [Scalar α]

theorem addTo_nodup {addends : List (Addend α)} (distinct : (addends.map (·.var)).Nodup) (c : α)
    (v : Variable) : ((addTo c v addends).map (·.var)).Nodup := by
  induction addends with
  | nil =>
    simp only [addTo]
    split <;> simp
  | cons first rest ih =>
    obtain ⟨apart, others⟩ := List.nodup_cons.mp distinct
    simp only [addTo]
    split
    next here =>
      split
      · exact others
      · exact List.nodup_cons.mpr ⟨here ▸ apart, others⟩
    next elsewhere =>
      refine List.nodup_cons.mpr ⟨fun member => ?_, ih others⟩
      obtain ⟨a, inside, same⟩ := List.mem_map.mp member
      rcases addTo_mentions inside with other | ⟨b, old, equal⟩
      · exact elsewhere (same.symm.trans other)
      · exact apart (List.mem_map.mpr ⟨b, old, equal.trans same⟩)

variable {e : Equation α} (distinct : e.vars.Nodup)
include distinct

theorem vars_fix (v : Variable) (value : α) :
    (e.fix v value).vars.Nodup ∧ ∀ w ∈ (e.fix v value).vars, w ≠ v ∧ w ∈ e.vars := by
  unfold Equation.fix
  split
  next c rest taken =>
    have same := (takeOut_perm taken).map (·.var)
    obtain ⟨absent, others⟩ := List.nodup_cons.mp (same.nodup_iff.mp distinct)
    refine ⟨others, fun w member => ⟨?_, same.mem_iff.mpr (List.mem_cons_of_mem _ member)⟩⟩
    rintro rfl
    exact absent member
  next none =>
    refine ⟨distinct, fun w member => ⟨?_, member⟩⟩
    rintro rfl
    exact takeOut_eq_none none member

theorem vars_merge {source target : Variable} (apart : source ≠ target) :
    (e.merge source target).vars.Nodup ∧ ∀ w ∈ (e.merge source target).vars,
      w ≠ source ∧ (w = target ∨ w ∈ e.vars) := by
  unfold Equation.merge
  split
  next c rest taken =>
    have same := (takeOut_perm taken).map (·.var)
    obtain ⟨absent, others⟩ := List.nodup_cons.mp (same.nodup_iff.mp distinct)
    refine ⟨addTo_nodup others c target, fun w member => ?_⟩
    obtain ⟨a, inside, rfl⟩ := List.mem_map.mp member
    rcases addTo_mentions inside with here | ⟨b, old, equal⟩
    · exact ⟨here ▸ apart.symm, .inl here⟩
    · have left : a.var ∈ rest.map (·.var) := List.mem_map.mpr ⟨b, old, equal⟩
      refine ⟨?_, .inr (same.mem_iff.mpr (List.mem_cons_of_mem _ left))⟩
      intro taken
      exact absent (taken ▸ left)
  next none =>
    refine ⟨distinct, fun w member => ⟨?_, .inr member⟩⟩
    rintro rfl
    exact takeOut_eq_none none member

end Variables

theorem takeOut_spec {v : Nat} {addends : List (Addend Extended)} {scalar : Extended}
    (formed : WellFormed ⟨addends, scalar⟩) {c : Extended} {rest : List (Addend Extended)}
    (taken : takeOut v addends = some (c, rest)) :
    c = finite c.toRat ∧ WellFormed ⟨rest, scalar⟩ ∧ Mentions ⟨addends, scalar⟩ v ∧
      (∀ x : Variable → ℚ, left ⟨addends, scalar⟩ x = c.toRat * x v + left ⟨rest, scalar⟩ x) ∧
      ∀ w, Mentions ⟨rest, scalar⟩ w ↔ w ≠ v ∧ Mentions ⟨addends, scalar⟩ w := by
  have same := takeOut_perm taken
  have inside : ⟨c, v⟩ ∈ addends := same.mem_iff.mpr (by simp)
  have inner : ∀ a ∈ rest, a ∈ addends := fun a later => same.mem_iff.mpr (List.mem_cons_of_mem _ later)
  obtain ⟨absent, distinct⟩ := List.nodup_cons.mp ((same.map (·.var)).nodup_iff.mp formed.distinct)
  refine ⟨formed.coefficient_eq inside, ⟨distinct, fun a later => formed.coefficients a (inner a later),
    formed.scalar⟩, ⟨_, inside, rfl⟩, fun x => ?_, fun w => ⟨?_, ?_⟩⟩
  · rw [← left_cons ⟨c, v⟩ rest scalar x]
    exact (same.map _).sum_eq
  · rintro ⟨a, later, rfl⟩
    refine ⟨fun equal => absent ?_, a, inner a later, rfl⟩
    exact List.mem_map.mpr ⟨a, later, equal⟩
  · rintro ⟨other, a, member, rfl⟩
    rcases List.mem_cons.mp (same.mem_iff.mp member) with rfl | later
    · exact absurd rfl other
    · exact ⟨a, later, rfl⟩

theorem mentions_addTo {c : Extended} {v w : Nat} (other : w ≠ v) {addends : List (Addend Extended)}
    {scalar : Extended} (mentions : Mentions ⟨addends, scalar⟩ w) :
    Mentions ⟨addTo c v addends, scalar⟩ w := by
  induction addends with
  | nil =>
    obtain ⟨a, member, -⟩ := mentions
    cases member
  | cons first rest ih =>
    simp only [addTo]
    rcases mentions_cons.mp mentions with rfl | later
    · rw [if_neg other]
      exact mentions_cons.mpr (.inl rfl)
    · split
      · split
        · exact later
        · exact mentions_cons.mpr (.inr later)
      · exact mentions_cons.mpr (.inr (ih later))

section Edits

variable {e : Equation Extended} (formed : e.WellFormed)
include formed

theorem WellFormed.fix_spec (v : Nat) (value : ℚ) :
    (e.fix v (finite value)).WellFormed ∧
      (∀ x : Variable → ℚ, x v = value → (e.fix v (finite value)).residual x = e.residual x) ∧
      ∀ w, (e.fix v (finite value)).Mentions w ↔ w ≠ v ∧ e.Mentions w := by
  unfold Equation.fix
  split
  next c rest taken =>
    obtain ⟨shape, restFormed, -, left, mentions⟩ := takeOut_spec formed taken
    rw [shape, mul_finite, formed.scalar_eq, sub_finite]
    refine ⟨⟨restFormed.distinct, restFormed.coefficients, _, rfl⟩, fun x same => ?_, mentions⟩
    have first := left x
    change e.left x = _ at first
    rw [residual, residual, first, ← same]
    change Equation.left ⟨rest, e.scalar⟩ x - (e.right - c.toRat * x v) = _
    ring
  next absent =>
    refine ⟨formed, fun _ _ => rfl, fun w => ⟨fun said => ⟨?_, said⟩, And.right⟩⟩
    rintro rfl
    exact takeOut_eq_none absent (List.mem_map.mpr said)

theorem WellFormed.merge_kept (source target : Nat) :
    (e.merge source target).WellFormed ∧
      (∀ x : Variable → ℚ, x source = x target →
        (e.merge source target).residual x = e.residual x) ∧
      ∀ w, (e.merge source target).Mentions w → e.Mentions w ∨ (w = target ∧ e.Mentions source) := by
  unfold Equation.merge
  split
  next c rest taken =>
    obtain ⟨shape, restFormed, present, left, mentions⟩ := takeOut_spec formed taken
    rw [shape]
    refine ⟨restFormed.add _ target, fun x same => ?_, fun w said => ?_⟩
    · have first := left x
      have last := restFormed.left_add c.toRat target x
      change e.left x = _ at first
      change Equation.left ⟨addTo (finite c.toRat) target rest, e.scalar⟩ x = _ at last
      rw [residual, residual, first, last, same]
      change _ - e.right = _ - e.right
      ring
    · obtain ⟨a, member, rfl⟩ := said
      rcases addTo_mentions member with same | later
      · exact .inr ⟨same, present⟩
      · exact .inl ((mentions a.var).mp later).2
  next => exact ⟨formed, fun _ _ => rfl, fun _ => .inl⟩

theorem WellFormed.merge_spec {source target : Nat} (apart : source ≠ target) :
    (e.merge source target).WellFormed ∧
      (∀ x : Variable → ℚ, x source = x target →
        (e.merge source target).residual x = e.residual x) ∧
      (∀ w, (e.merge source target).Mentions w →
        w ≠ source ∧ (e.Mentions w ∨ (w = target ∧ e.Mentions source))) ∧
      ∀ w, w ≠ source → w ≠ target → e.Mentions w → (e.merge source target).Mentions w := by
  obtain ⟨kept, value, known⟩ := formed.merge_kept source target
  refine ⟨kept, value, fun w said => ⟨?_, known w said⟩, fun w other' other said => ?_⟩
  · unfold Equation.merge at said
    split at said
    next c rest taken =>
      obtain ⟨a, member, rfl⟩ := said
      rcases addTo_mentions member with same | later
      · exact same ▸ apart.symm
      · exact (((takeOut_spec formed taken).2.2.2.2 a.var).mp later).1
    next absent =>
      rintro rfl
      exact takeOut_eq_none absent (List.mem_map.mpr said)
  · unfold Equation.merge
    split
    next c rest taken =>
      exact mentions_addTo other (((takeOut_spec formed taken).2.2.2.2 w).mpr ⟨other', said⟩)
    next => exact said

end Edits

section Renaming

variable {name : Variable → Except Fault Variable}

theorem renameAddends_spec {α : Type} {addends renamed : List (Addend α)}
    (run : renameAddends name addends = (renamed, .ok ())) :
    List.Forall₂ (fun a b => b.coefficient = a.coefficient ∧ name a.var = .ok b.var)
      addends renamed := by
  induction addends generalizing renamed with
  | nil =>
    cases run
    exact .nil
  | cons first rest ih =>
    unfold renameAddends at run
    split at run
    · cases run
    next v named =>
      cases later : renameAddends name rest with
      | mk others outcome =>
        rw [later] at run
        obtain ⟨rfl, rfl⟩ : _ = renamed ∧ outcome = .ok () := by simpa using run
        exact .cons ⟨rfl, named⟩ (ih later)

theorem WellFormed.rename_spec {e renamed : Equation Extended} (formed : e.WellFormed)
    (run : e.rename name = (renamed, .ok ()))
    (injective : ∀ u v i, name u = .ok i → name v = .ok i → u = v) :
    renamed.WellFormed ∧
      (∀ x y : Variable → ℚ, (∀ v i, name v = .ok i → y i = x v) →
        renamed.residual y = e.residual x) ∧
      ∀ i, renamed.Mentions i ↔ ∃ v, e.Mentions v ∧ name v = .ok i := by
  obtain ⟨addends, scalar⟩ := e
  unfold Equation.rename at run
  cases shape : renameAddends name addends with
  | mk others outcome =>
    rw [shape] at run
    obtain ⟨rfl, rfl⟩ : _ = renamed ∧ outcome = .ok () := by simpa using run
    have paired := renameAddends_spec shape
    clear run shape
    induction paired with
    | nil =>
      refine ⟨⟨List.nodup_nil, by simp, formed.scalar⟩, fun _ _ _ => rfl, ?_⟩
      simp [Mentions]
    | @cons a b rest others here paired ih =>
      obtain ⟨kept, value, mentions⟩ := ih formed.tail
      have apart : ¬ Mentions ⟨rest, scalar⟩ a.var := fun ⟨c, member, var⟩ =>
        (List.nodup_cons.mp formed.distinct).1 (List.mem_map.mpr ⟨c, member, var⟩)
      refine ⟨⟨?_, ?_, formed.scalar⟩, fun x y same => ?_, fun i => ?_⟩
      · refine List.nodup_cons.mpr ⟨fun member => ?_, kept.distinct⟩
        obtain ⟨c, inside, var⟩ := List.mem_map.mp member
        obtain ⟨v, said, named⟩ := (mentions b.var).mp ⟨c, inside, var⟩
        exact apart (injective _ _ _ here.2 named ▸ said)
      · intro c member
        rcases List.mem_cons.mp member with rfl | later
        · exact here.1 ▸ formed.coefficients a (by simp)
        · exact kept.coefficients c later
      · have tail := value x y same
        simp only [residual, left_cons] at tail ⊢
        rw [here.1, same _ _ here.2]
        change _ + _ - scalar.toRat = _ + _ - scalar.toRat
        change _ - scalar.toRat = _ - scalar.toRat at tail
        linarith
      · rw [mentions_cons, mentions]
        constructor
        · rintro (rfl | ⟨v, said, named⟩)
          · exact ⟨a.var, mentions_cons.mpr (.inl rfl), here.2⟩
          · exact ⟨v, mentions_cons.mpr (.inr said), named⟩
        · rintro ⟨v, said, named⟩
          rcases mentions_cons.mp said with rfl | later
          · exact .inl (Except.ok.inj (here.2.symm.trans named))
          · exact .inr ⟨v, later, named⟩

end Renaming

end Equation

end ReluSolver
