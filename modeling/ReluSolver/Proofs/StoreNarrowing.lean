import ReluSolver.Proofs.StoreTightening

/-! The bounds of a store only get narrower: a value within the bounds after some
tightenings, up to a tolerance, was within the bounds before and respects each of the
tightenings. -/

namespace ReluSolver

open Extended

theorem Extended.not_lt_undefined (x : Extended) : ¬ x < undefined := by
  cases x <;> exact nofun

theorem Extended.not_undefined_lt (x : Extended) : ¬ undefined < x := nofun

namespace Tolerance

variable {t : Tolerance Extended} {epsilon : ℚ}

theorem ge_eq_true (same : t.epsilon = finite epsilon) (positive : 0 ≤ epsilon) (x y : Extended) :
    t.ge x y = true ↔ match x, y with
      | undefined, _ | _, undefined => False
      | infinity, _ | _, negInfinity => True
      | finite x, finite y => y ≤ x + epsilon
      | _, _ => False := by
  have rationals := fun x y => @ge_finite t epsilon same positive x y
  cases x <;> cases y <;>
    first
    | exact rationals _ _
    | (simp only [ge, same]; exact iff_of_true rfl trivial)
    | (simp only [ge, same]; exact iff_of_false Bool.false_ne_true id)

variable (same : t.epsilon = finite epsilon) (positive : 0 ≤ epsilon) {x lower upper value : Extended}
include same positive

theorem ge_of_lt (less : lower < value) (above : t.ge x value = true) : t.ge x lower = true := by
  rw [ge_eq_true same positive] at above ⊢
  cases x <;> cases lower <;> cases value <;> first | trivial | cases above | cases less | skip
  next => exact (lt_finite.mp less).le.trans above

theorem ge_of_gt (greater : value < upper) (below : t.ge value x = true) : t.ge upper x = true := by
  rw [ge_eq_true same positive] at below ⊢
  cases x <;> cases upper <;> cases value <;> first | trivial | cases below | cases greater | skip
  next => exact le_trans below (by linarith [lt_finite.mp greater])

theorem ge_of_not_lt (stays : ¬ lower < value) (defined : value ≠ undefined)
    (above : t.ge x lower = true) : t.ge x value = true := by
  rw [ge_eq_true same positive] at above ⊢
  cases x <;> cases lower <;> cases value <;>
    first | trivial | cases above | exact absurd rfl stays | exact absurd rfl defined | skip
  next => exact le_trans (not_lt.mp fun less => stays (lt_finite.mpr less)) above

theorem ge_of_not_gt (stays : ¬ value < upper) (defined : value ≠ undefined)
    (below : t.ge upper x = true) : t.ge value x = true := by
  rw [ge_eq_true same positive] at below ⊢
  cases x <;> cases upper <;> cases value <;>
    first | trivial | cases below | exact absurd rfl stays | exact absurd rfl defined | skip
  next =>
    have := not_lt.mp fun less => stays (lt_finite.mpr less)
    exact le_trans below (by linarith)

end Tolerance

namespace Store

variable {s last : Store Extended}

theorem Tightened.defined (tightened : s.Tightened last)
    (defined : ∀ (v : Nat) c, s.cells[v]? = some c →
      c.bounds.lower ≠ undefined ∧ c.bounds.upper ≠ undefined) :
    ∀ (v : Nat) c, last.cells[v]? = some c →
      c.bounds.lower ≠ undefined ∧ c.bounds.upper ≠ undefined := by
  induction tightened with
  | refl => exact defined
  | @place s _ t known ih =>
    rcases place_cases s t known with ⟨-, same⟩ | ⟨observer, improves, same⟩
    · rwa [same]
    · rw [same]
      intro v c found
      rw [Array.getElem?_set] at found
      split at found
      next equal =>
        obtain rfl := Option.some.inj found
        have old := ih t.var _ (Array.getElem?_eq_getElem known)
        obtain ⟨side, var, value⟩ := t
        cases side with
        | lower =>
          refine ⟨?_, old.2⟩
          rintro rfl
          exact not_lt_undefined s.cells[var].bounds.lower (of_decide_eq_true improves)
        | upper =>
          refine ⟨old.1, ?_⟩
          rintro rfl
          exact not_undefined_lt s.cells[var].bounds.upper (of_decide_eq_true improves)
      next => exact ih v c found

/-- The bounds of a variable allow a value, up to a tolerance. -/
def Allows (t : Tolerance Extended) (s : Store Extended) (v : Variable) (a : Extended) : Prop :=
  ∀ c, s.cells[v]? = some c → t.within a c.bounds.lower c.bounds.upper = true

def Respects (t : Tolerance Extended) (tightening : Tightening Extended) (a : Extended) : Prop :=
  match tightening.side with
  | .lower => t.ge a tightening.value = true
  | .upper => t.ge tightening.value a = true

section Within

variable {t : Tolerance Extended} {epsilon : ℚ} (same : t.epsilon = finite epsilon)
  (positive : 0 ≤ epsilon) {v : Nat} {a : Extended} {outcome : Outcome}
include same positive

theorem allows_of_place {tightening : Tightening Extended} (known : tightening.var < s.cells.size)
    (allows : (s.place tightening known).2.Allows t v a) : s.Allows t v a := by
  intro c found
  rcases place_cases s tightening known with ⟨-, placed⟩ | ⟨observer, improves, placed⟩
  · exact allows c (by rw [placed]; exact found)
  · rw [placed] at allows
    by_cases here : tightening.var = v
    · subst here
      obtain rfl : s.cells[tightening.var] = c := by
        simpa [Array.getElem?_eq_getElem known] using found
      have inside := allows (s.cells[tightening.var].put tightening.side tightening.value true)
        (by simp)
      obtain ⟨side, var, value⟩ := tightening
      rw [Tolerance.within, Bool.and_eq_true] at inside ⊢
      cases side with
      | lower =>
        exact ⟨Tolerance.ge_of_lt same positive (of_decide_eq_true improves) inside.1, inside.2⟩
      | upper =>
        exact ⟨inside.1, Tolerance.ge_of_gt same positive (of_decide_eq_true improves) inside.2⟩
    · exact allows c (by rw [Array.getElem?_set_ne known here]; exact found)

theorem Tightened.allows (tightened : s.Tightened last) (allows : last.Allows t v a) :
    s.Allows t v a := by
  induction tightened with
  | refl => exact allows
  | place _ tightening known ih => exact ih (allows_of_place same positive known allows)

theorem tighten_respects {tightening : Tightening Extended} (defined : tightening.value ≠ undefined)
    (run : (tighten tightening s : EStateM.Result Fault _ _) = .ok outcome last)
    (allows : last.Allows t tightening.var a) : Respects t tightening a := by
  by_cases known : tightening.var < s.cells.size
  swap
  · obtain ⟨cause, failed⟩ := tighten_unknown known
    cases failed.symm.trans run
  rw [tighten_known known] at run
  obtain ⟨-, rfl⟩ := EStateM.Result.ok.inj run
  obtain ⟨side, var, value⟩ := tightening
  rcases place_cases s ⟨side, var, value⟩ known with ⟨stays, placed⟩ | ⟨observer, improves, placed⟩
  · rw [placed] at allows
    have inside := allows _ (Array.getElem?_eq_getElem known)
    rw [Tolerance.within, Bool.and_eq_true] at inside
    cases side with
    | lower => exact Tolerance.ge_of_not_lt same positive (of_decide_eq_false stays) defined inside.1
    | upper => exact Tolerance.ge_of_not_gt same positive (of_decide_eq_false stays) defined inside.2
  · rw [placed] at allows
    have inside := allows (s.cells[var].put side value true) (by simp)
    rw [Tolerance.within, Bool.and_eq_true] at inside
    cases side with
    | lower => exact inside.1
    | upper => exact inside.2

theorem tightenAll_respects {ts : List (Tightening Extended)}
    (defined : ∀ tightening ∈ ts, tightening.value ≠ undefined)
    (run : (tightenAll ts s : EStateM.Result Fault _ _) = .ok outcome last)
    (feasible : outcome ≠ .infeasible) (allows : last.Allows t v a) :
    ∀ tightening ∈ ts, tightening.var = v → Respects t tightening a := by
  induction ts generalizing s outcome with
  | nil => simp
  | cons first rest ih =>
    obtain ⟨early, between, tightened, run⟩ := run_bind_eq_ok.mp run
    split at run
    · cases run
      exact absurd rfl feasible
    · obtain ⟨late, last', others, run⟩ := run_bind_eq_ok.mp run
      cases run
      have lateFeasible : late ≠ .infeasible := by
        rintro rfl
        cases early <;> exact feasible rfl
      intro tightening member here
      rcases List.mem_cons.mp member with rfl | later
      · have narrowed := (tightenAll_tightened between rest).ok .refl others
        exact tighten_respects same positive (defined _ (by simp)) tightened
          (here ▸ narrowed.allows same positive allows)
      · exact ih (fun other member => defined other (by simp [member])) others lateFeasible _ later here

/-- What the bounds allow afterwards is within the bounds that were asked for. -/
theorem tightenBounds_within {bounds : Interval Extended}
    (defined : bounds.lower ≠ undefined ∧ bounds.upper ≠ undefined)
    (run : (tightenBounds v bounds s : EStateM.Result Fault _ _) = .ok outcome last)
    (feasible : outcome ≠ .infeasible) (allows : last.Allows t v a) :
    t.within a bounds.lower bounds.upper = true := by
  have both : ∀ tightening ∈ [Tightening.lower v bounds.lower, Tightening.upper v bounds.upper],
      tightening.value ≠ undefined := by
    simpa [Tightening.lower, Tightening.upper] using defined
  have each := tightenAll_respects same positive both run feasible allows
  rw [Tolerance.within, Bool.and_eq_true]
  exact ⟨each (.lower v bounds.lower) (by simp) rfl, each (.upper v bounds.upper) (by simp) rfl⟩

theorem tightenFrom_within {first : Nat} {bounds : List (Interval Extended)}
    (defined : ∀ interval ∈ bounds, interval.lower ≠ undefined ∧ interval.upper ≠ undefined)
    (run : (tightenFrom first bounds s : EStateM.Result Fault _ _) = .ok outcome last)
    (feasible : outcome ≠ .infeasible) {i : Nat} (known : i < bounds.length)
    (allows : last.Allows t (first + i) a) :
    t.within a bounds[i].lower bounds[i].upper = true := by
  have both : ∀ tightening ∈ Interval.tighteningsFrom first bounds,
      tightening.value ≠ undefined := by
    intro tightening member
    obtain ⟨j, inside, rfl | rfl⟩ := Interval.mem_tighteningsFrom member
    · exact (defined _ (List.getElem_mem inside)).1
    · exact (defined _ (List.getElem_mem inside)).2
  rw [tightenFrom_eq] at run
  have each := tightenAll_respects same positive both run feasible allows
  obtain ⟨lower, upper⟩ := Interval.tighteningsFrom_mem known
  rw [Tolerance.within, Bool.and_eq_true]
  exact ⟨each _ lower rfl, each _ upper rfl⟩

end Within

end Store

end ReluSolver
