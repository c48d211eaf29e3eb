import ReluSolver.Proofs.RowSoundness

/-! One pass over a row installs bounds that are known before it begins. They are worth it,
and computed from the bounds of the other variables at the start; whatever the pass has
tightened before does not matter. -/

namespace ReluSolver

open Extended Deduction

theorem run_bind_congr {ε σ β γ : Type} {x y : EStateM ε σ β} {next other : β → EStateM ε σ γ} {state : σ}
    (first : x state = y state)
    (rest : ∀ value between, y state = .ok value between → next value between = other value between) :
    (x >>= next) state = (y >>= other) state := by
  change EStateM.bind x next state = EStateM.bind y other state
  unfold EStateM.bind
  rw [first]
  cases run : y state with
  | ok value between => exact rest value between run
  | error cause between => rfl

theorem run_bind_ok {ε σ β γ : Type} {x : EStateM ε σ β} {next : β → EStateM ε σ γ} {state between : σ}
    {value : β} (first : x state = .ok value between) : (x >>= next) state = next value between := by
  change EStateM.bind x next state = _
  rw [EStateM.bind, first]

deriving instance DecidableEq for Interval
deriving instance DecidableEq for Tightening

section Install

variable {α : Type} [Scalar α] {s mid : Store α} {t : Tightening α}

/-- The bounds of a variable; one that the store does not have is unbounded. -/
def Store.box (s : Store α) (v : Variable) : Interval α :=
  match s.cells[v]? with
  | some c => c.bounds
  | none => Interval.all

namespace Deduction

/-- Puts a value in the place of a bound. It is a conflict if that leaves the variable without a
value. -/
def install (t : Tightening α) : Deduction α Unit := fun s =>
  match s.cells[t.var]? with
  | some c =>
    let changed := c.put t.side t.value true
    let entry := ⟨t.var, t.side, c.value t.side, c.flag t.side⟩
    let last := { s with cells := s.cells.setIfInBounds t.var changed, trail := s.trail.record entry }
    if changed.isConsistent s.tolerance then .ok () { last with observer := s.observer.notify t }
    else .error .conflict last
  | none => .error (.fault .missingEntry) s

def installIf (worth : Bool) (t : Tightening α) : Deduction α Bool :=
  if worth then (do install t; return true) else return false

def installAll : List (Tightening α) → Deduction α (List Variable)
  | [] => return []
  | t :: rest => do
    install t
    return t.var :: (← installAll rest)

theorem installAll_append (first second : List (Tightening α)) :
    installAll (first ++ second) = (do return (← installAll first) ++ (← installAll second)) := by
  induction first with
  | nil => simp [installAll]
  | cons t rest ih => simp [installAll, ih]

theorem install_ok (run : install t s = .ok () mid) :
    (∃ c, s.cells[t.var]? = some c ∧ mid.cells[t.var]? = some (c.put t.side t.value true)) ∧
      ∀ v : Nat, v ≠ t.var → mid.cells[v]? = s.cells[v]? := by
  unfold install at run
  cases cell : s.cells[t.var]? with
  | none =>
    rw [cell] at run
    cases run
  | some c =>
    obtain ⟨known, -⟩ := Array.getElem?_eq_some_iff.mp cell
    rw [cell] at run
    dsimp only at run
    split at run
    · obtain ⟨-, rfl⟩ := EStateM.Result.ok.inj run
      refine ⟨⟨c, rfl, ?_⟩, fun v other => ?_⟩
      · rw [Array.getElem?_setIfInBounds_self_of_lt known]
      · rw [Array.getElem?_setIfInBounds_ne other.symm]
    · cases run

theorem installAll_other {tightenings : List (Tightening α)} {news : List Variable} {v : Variable}
    (run : installAll tightenings s = .ok news mid) (absent : ∀ t ∈ tightenings, v ≠ t.var) :
    mid.cells[v]? = s.cells[v]? := by
  induction tightenings generalizing s news with
  | nil =>
    obtain ⟨-, rfl⟩ := EStateM.Result.ok.inj run
    rfl
  | cons t rest ih =>
    obtain ⟨apart, later⟩ := List.forall_mem_cons.mp absent
    obtain ⟨_, between, installed, tail⟩ := run_bind_eq_ok.mp run
    obtain ⟨more, _, others, same⟩ := run_bind_eq_ok.mp tail
    obtain ⟨-, rfl⟩ := EStateM.Result.ok.inj same
    rw [ih others later, (install_ok installed).2 v apart]

theorem derive_eq {c : Cell α} (cell : s.cells[t.var]? = some c) :
    derive t s = installIf (c.improves t.side t.value) t s := by
  obtain ⟨known, rfl⟩ := Array.getElem?_eq_some_iff.mp cell
  rw [derive, Store.tighten_known known]
  cases improves : s.cells[t.var].improves t.side t.value with
  | false => simp [Store.place, improves, installIf, pure, EStateM.pure, Outcome.isAccepted]
  | true =>
    cases consistent : (s.cells[t.var].put t.side t.value true).isConsistent s.tolerance <;>
      simp [Store.place, improves, installIf, install, consistent, known, bind, EStateM.bind, pure, EStateM.pure,
        Outcome.isAccepted, Array.setIfInBounds]

end Deduction

end Install

namespace Effort

variable (effort : Effort Extended)

/-- A rational is worth to replace a bound that is infinite, or that it improves by more than the least
gain. It has to be tighter in any case. -/
def isWorth (bounds : Interval Extended) (t : Tightening Extended) : Bool :=
  Scalar.isFinite t.value && match t.side with
    | .lower =>
      (!Scalar.isFinite bounds.lower || decide (effort.leastGain < t.value - bounds.lower)) &&
        decide (bounds.lower < t.value)
    | .upper =>
      (!Scalar.isFinite bounds.upper || decide (effort.leastGain < bounds.upper - t.value)) &&
        decide (t.value < bounds.upper)

/-- What the values that a row offers to the variable of one term are worth. -/
def gainsOf (row : Equation Extended) (box : Variable → Interval Extended) (a : Addend Extended) :
    List (Tightening Extended) :=
  if effort.tolerance.isZero a.coefficient then []
  else
    [.lower a.var (row.rangeOf box a).lower, .upper a.var (row.rangeOf box a).upper].filter
      (effort.isWorth (box a.var))

/-- What the values that a row offers are worth, in the order of its terms. -/
def gains (row : Equation Extended) (box : Variable → Interval Extended) : List (Tightening Extended) :=
  row.addends.flatMap (effort.gainsOf row box)

variable {effort} {s : Store Extended} {c : Cell Extended}

section Least

variable (defined : effort.leastGain ≠ undefined)
include defined

theorem isWorth_eq (t : Tightening Extended) : effort.isWorth c.bounds t =
    (effort.isGain t.side c.bounds t.value && c.improves t.side t.value) := by
  have raised (value old : ℚ) : effort.leastGain < finite value - finite old ↔
      ¬ finite value ≤ finite old + effort.leastGain := by
    cases shape : effort.leastGain with
    | undefined => exact absurd shape defined
    | finite gain => simp only [sub_finite, lt_finite, add_finite, le_finite, not_le, lt_sub_iff_add_lt']
    | infinity => exact iff_of_false Bool.false_ne_true (not_not.mpr rfl)
    | negInfinity => exact iff_of_true rfl Bool.false_ne_true
  have lowered (value old : ℚ) : effort.leastGain < finite old - finite value ↔
      ¬ finite old - effort.leastGain ≤ finite value := by
    cases shape : effort.leastGain with
    | undefined => exact absurd shape defined
    | finite gain => simp only [sub_finite, lt_finite, le_finite, not_le, lt_sub_comm]
    | infinity => exact iff_of_false Bool.false_ne_true (not_not.mpr rfl)
    | negInfinity => exact iff_of_true rfl Bool.false_ne_true
  obtain ⟨side, v, value⟩ := t
  cases bounded : Scalar.isFinite value with
  | false => cases side <;> simp [isWorth, isGain, bounded]
  | true =>
    obtain ⟨r, rfl⟩ := isFinite_iff.mp bounded
    cases side with
    | lower =>
      cases old : Scalar.isFinite c.bounds.lower with
      | false => simp [isWorth, isGain, Cell.improves, old]
      | true =>
        obtain ⟨o, shape⟩ := isFinite_iff.mp old
        simp [isWorth, isGain, Cell.improves, shape, -sub_finite, raised]
    | upper =>
      cases old : Scalar.isFinite c.bounds.upper with
      | false => simp [isWorth, isGain, Cell.improves, old]
      | true =>
        obtain ⟨o, shape⟩ := isFinite_iff.mp old
        simp [isWorth, isGain, Cell.improves, shape, -sub_finite, lowered]

theorem improve_eq {t : Tightening Extended} (cell : s.cells[t.var]? = some c) :
    effort.improve t s = installIf (effort.isWorth c.bounds t) t s := by
  have observed : observe (·.interval t.var) s = .ok c.bounds s := by
    rw [observe, Store.interval_of_cell cell]
  rw [isWorth_eq defined]
  refine (run_bind_ok observed).trans ?_
  cases gain : effort.isGain t.side c.bounds t.value with
  | false => rfl
  | true => exact derive_eq cell

/-- Both ends of an interval are installed where they are worth it. The second one is judged by the
bounds from before the first one was installed, because it is on the other side. -/
theorem improve_both {v : Variable} (cell : s.cells[v]? = some c) (values : Interval Extended) :
    (do
      let below ← effort.improve (.lower v values.lower)
      let above ← effort.improve (.upper v values.upper)
      return List.replicate (below.toNat + above.toNat) v : Deduction Extended (List Variable)) s =
    installAll ([.lower v values.lower, .upper v values.upper].filter (effort.isWorth c.bounds)) s := by
  have first := improve_eq defined (t := .lower v values.lower) cell
  have second : ∀ below between,
      installIf (effort.isWorth c.bounds (.lower v values.lower)) (.lower v values.lower) s =
        .ok below between →
      effort.improve (.upper v values.upper) between =
        installIf (effort.isWorth c.bounds (.upper v values.upper)) (.upper v values.upper) between := by
    intro below between run
    unfold installIf at run
    split at run
    · obtain ⟨_, mid, installed, rest⟩ := run_bind_eq_ok.mp run
      obtain ⟨-, rfl⟩ := EStateM.Result.ok.inj rest
      obtain ⟨⟨c', found, changed⟩, -⟩ := install_ok installed
      obtain rfl : c = c' := Option.some.inj (cell.symm.trans found)
      exact improve_eq (c := c.put .lower values.lower true) defined changed
    · obtain ⟨-, rfl⟩ := EStateM.Result.ok.inj run
      exact improve_eq defined cell
  calc
    _ = (do
        let below ← installIf (effort.isWorth c.bounds (.lower v values.lower)) (.lower v values.lower)
        let above ← installIf (effort.isWorth c.bounds (.upper v values.upper)) (.upper v values.upper)
        return List.replicate (below.toNat + above.toNat) v : Deduction Extended (List Variable)) s :=
      run_bind_congr first fun below between run =>
        run_bind_congr (second below between run) fun _ _ _ => rfl
    _ = _ := by
      simp only [List.filter_cons, List.filter_nil]
      cases effort.isWorth c.bounds (.lower v values.lower) <;>
        cases effort.isWorth c.bounds (.upper v values.upper) <;>
        simp [installIf, installAll, Tightening.lower, Tightening.upper]

/-- Every term is examined with the bounds from before the row was begun, because the terms before
it are about other variables. -/
theorem examineTerms_eq {row : Equation Extended} {range : RowRange Extended}
    {box : Variable → Interval Extended} {terms : List (Addend Extended)}
    (offered : ∀ a ∈ terms, offer row range a (box a.var) = row.rangeOf box a)
    (distinct : (terms.map (·.var)).Nodup)
    (seen : ∀ a ∈ terms, ∃ c, s.cells[a.var]? = some c ∧ c.bounds = box a.var) :
    effort.examineTerms row range terms s =
      installAll (terms.flatMap (effort.gainsOf row box)) s := by
  induction terms generalizing s with
  | nil => rfl
  | cons a rest ih =>
    obtain ⟨here, offered⟩ := List.forall_mem_cons.mp offered
    obtain ⟨apart, distinct⟩ := List.nodup_cons.mp distinct
    obtain ⟨⟨c, cell, bounds⟩, seen⟩ := List.forall_mem_cons.mp seen
    rw [List.flatMap_cons]
    unfold examineTerms gainsOf
    split
    next => exact ih offered distinct seen
    next =>
      have observed : observe (·.interval a.var) s = .ok (box a.var) s := by
        rw [observe, Store.interval_of_cell cell, bounds]
      refine (run_bind_ok observed).trans ?_
      rw [here, installAll_append, ← bounds]
      have both := improve_both defined cell (row.rangeOf box a)
      have later : ∀ first between, installAll ([.lower a.var (row.rangeOf box a).lower,
          .upper a.var (row.rangeOf box a).upper].filter (effort.isWorth c.bounds)) s =
            .ok first between →
          effort.examineTerms row range rest between =
            installAll (rest.flatMap (effort.gainsOf row box)) between := by
        intro first between run
        refine ih offered distinct fun b member => ?_
        obtain ⟨c', cell', bounds'⟩ := seen b member
        refine ⟨c', ?_, bounds'⟩
        rw [installAll_other run fun t inside => ?_, cell']
        have which := List.mem_of_mem_filter inside
        have other : b.var ≠ a.var := fun same => apart (List.mem_map.mpr ⟨b, member, same⟩)
        rcases List.mem_pair.mp which with rfl | rfl <;> exact other
      calc
        _ = (do
            let first ← (do
              let below ← effort.improve (.lower a.var (row.rangeOf box a).lower)
              let above ← effort.improve (.upper a.var (row.rangeOf box a).upper)
              return List.replicate (below.toNat + above.toNat) a.var)
            return first ++ (← effort.examineTerms row range rest) :
              Deduction Extended (List Variable)) s := by simp
        _ = _ := run_bind_congr both fun first between run =>
          run_bind_congr (later first between run) fun _ _ _ => rfl

end Least

/-- One pass over a row installs what its offers are worth, no more and no less, and up to the first
conflict. The offers are computed from the bounds of the other variables from before the pass, by adding
up the ends of the other terms. Such an offer is the infimum and the supremum of the values that the row
allows the variable, unless bounds of the others cross. -/
theorem examineRow_hulls {row : Equation Extended} (formed : row.WellFormed)
    (known : ∀ a ∈ row.addends, a.var < s.size)
    (proper : ∀ c ∈ s.cells, c.bounds.Proper) (defined : effort.leastGain ≠ undefined) :
    (row.isEmpty = false → effort.examineRow row s = installAll (effort.gains row s.box) s) ∧
      ∃ range, RowRange.ofRow row s = .ok range ∧ ∀ a ∈ row.addends,
        offer row range a (s.box a.var) = row.rangeOf s.box a ∧
          ((row.rangeOf s.box a).IsHull (row.valuesOf s.box a) ↔
            ∀ b ∈ row.others a, (s.box b.var).lower ≤ (s.box b.var).upper) := by
  have seen : ∀ a ∈ row.addends, ∃ c, s.cells[a.var]? = some c ∧ c.bounds = s.box a.var := by
    intro a member
    have cell := Array.getElem?_eq_getElem (show a.var < s.cells.size from known a member)
    exact ⟨_, cell, by rw [Store.box, cell]⟩
  have boxed : ∀ a ∈ row.addends, (s.box a.var).Proper := by
    intro a member
    obtain ⟨c, cell, bounds⟩ := seen a member
    exact bounds ▸ proper c (Array.mem_of_getElem? cell)
  have ranged : RowRange.ofRow row s = .ok (RowRange.ofBox row.addends s.box) := by
    refine RowRange.ofRow_eq fun a member => ?_
    obtain ⟨c, cell, bounds⟩ := seen a member
    rw [Store.interval_of_cell cell, bounds]
  have offered : ∀ a ∈ row.addends, offer row (RowRange.ofBox row.addends s.box) a (s.box a.var) =
      row.rangeOf s.box a := fun a => offer_eq formed boxed
  refine ⟨fun filled => ?_, _, ranged, fun a member =>
    ⟨offered a member, Equation.rangeOf_isHull_iff formed boxed member⟩⟩
  have observed : observe (RowRange.ofRow row) s = .ok (RowRange.ofBox row.addends s.box) s := by
    rw [observe, ranged]
  unfold examineRow
  rw [filled]
  refine (run_bind_ok observed).trans ?_
  exact examineTerms_eq defined offered formed.distinct seen

/-- One end is infinite, and it is an end of the last variable, which is bounded there all the same. Of
each of the three offers one end is worth to be installed. -/
theorem examineRow_hulls_one_infinite :
    let effort : Effort Extended := ⟨⟨finite (1 / 1000)⟩, finite (1 / 10), 1⟩
    let row : Equation Extended := ⟨[⟨2, 0⟩, ⟨-1, 1⟩, ⟨1, 2⟩], 5⟩
    let s : Store Extended :=
      ⟨#[⟨⟨0, 3⟩, false, false⟩, ⟨⟨1, 4⟩, false, false⟩, ⟨⟨negInfinity, 2⟩, false, true⟩], ⟨[[]]⟩,
        .absent, ⟨finite (1 / 1000)⟩⟩
    effort.examineRow row s = installAll [.lower 0 2, .upper 1 3, .lower 2 0] s ∧
      ∃ range, RowRange.ofRow row s = .ok range ∧
        offer row range ⟨1, 2⟩ ⟨negInfinity, 2⟩ = ⟨0, 9⟩ ∧
        (⟨0, 9⟩ : Interval Extended).IsHull (row.valuesOf s.box ⟨1, 2⟩) := by
  intro effort row s
  have formed : row.WellFormed := by decide +kernel
  have known : ∀ a ∈ row.addends, a.var < s.size := by decide +kernel
  have defined : effort.leastGain ≠ undefined := by decide +kernel
  obtain ⟨pass, range, ranged, each⟩ := examineRow_hulls formed known (by decide +kernel) defined
  have gains : effort.gains row s.box = [.lower 0 2, .upper 1 3, .lower 2 0] := by decide +kernel
  have computed : row.rangeOf s.box ⟨1, 2⟩ = ⟨0, 9⟩ := by decide +kernel
  obtain ⟨offered, hull⟩ := each ⟨1, 2⟩ (by simp [row])
  rw [computed] at offered hull
  exact ⟨gains ▸ pass rfl, range, ranged, offered, hull.mpr (by decide +kernel)⟩

/-- Bounds that cross within the tolerance leave a variable no value, and the other variable of a row
is bounded by their ends all the same. -/
theorem offer_not_isHull :
    let effort : Effort Extended := ⟨⟨finite (1 / 2)⟩, 0, 1⟩
    let row : Equation Extended := ⟨[⟨1, 0⟩, ⟨1, 1⟩], 0⟩
    let s : Store Extended :=
      ⟨#[Cell.unbounded, ⟨⟨1, finite (3 / 4)⟩, true, true⟩], ⟨[[]]⟩, .absent, ⟨finite (1 / 2)⟩⟩
    row.WellFormed ∧ effort.tolerance.isZero 1 = false ∧
      (∀ c ∈ s.cells, c.bounds.Proper ∧ c.isConsistent s.tolerance = true) ∧
      ∃ range, RowRange.ofRow row s = .ok range ∧
        offer row range ⟨1, 0⟩ (s.box 0) = ⟨finite (-3 / 4), -1⟩ ∧
        ¬ (offer row range ⟨1, 0⟩ (s.box 0)).IsHull (row.valuesOf s.box ⟨1, 0⟩) ∧
        ∃ last, effort.examineRow row s = .ok [0, 0] last := by
  intro effort row s
  have formed : row.WellFormed := by decide +kernel
  have proper : ∀ a ∈ row.addends, (s.box a.var).Proper := by decide +kernel
  have ranged : RowRange.ofRow row s = .ok (RowRange.ofBox row.addends s.box) :=
    RowRange.ofRow_eq (by decide +kernel)
  have member : ⟨1, 0⟩ ∈ row.addends := by simp [row]
  have offered := offer_eq formed proper member
  have computed : row.rangeOf s.box ⟨1, 0⟩ = ⟨finite (-3 / 4), -1⟩ := by decide +kernel
  have crossed : ¬ ∀ b ∈ row.others ⟨1, 0⟩, (s.box b.var).lower ≤ (s.box b.var).upper := by
    decide +kernel
  have news : (effort.examineRow row).run' s = some [0, 0] := by decide +kernel
  refine ⟨formed, by decide +kernel, by decide +kernel, _, ranged, offered.trans computed, ?_, ?_⟩
  · rw [show offer row _ ⟨1, 0⟩ (s.box 0) = _ from offered,
      Equation.rangeOf_isHull_iff formed proper member]
    exact crossed
  · exact result_eq_some.mp news

end Effort

end ReluSolver
