import ReluSolver.Proofs.PropagationSoundness

/-! Deductions about variables that the store has end well or in a conflict. Whatever the
bounds and the tolerance are, none of them ends in a fault. -/

namespace ReluSolver

variable {α : Type} [Scalar α] {size : Nat}

namespace Store

theorem interval_total {s : Store α} (sized : s.size = size) {v : Variable} (known : v < size) :
    ∃ bounds, s.interval v = .ok bounds ∧ s.lower v = .ok bounds.lower ∧
      s.upper v = .ok bounds.upper := by
  have inside : v < s.cells.size := Nat.lt_of_lt_of_eq known sized.symm
  have cell := Array.getElem?_eq_getElem inside
  refine ⟨_, interval_of_cell cell, ?_, ?_⟩
  · simp [lower, Store.cell, cell, bind, Except.bind, pure, Except.pure]
  · simp [upper, Store.cell, cell, bind, Except.bind, pure, Except.pure]

theorem tighten_total {t : Tightening α} (known : t.var < size) :
    Returns (fun s : Store α => s.size = size) (tighten t) fun _ last => last.size = size := by
  intro s sized
  have inside : t.var < s.cells.size := Nat.lt_of_lt_of_eq known sized.symm
  rw [tighten_known inside]
  exact ((.refl : s.Tightened s).place t inside).size_eq.trans sized

theorem tightenAll_total {ts : List (Tightening α)} (known : ∀ t ∈ ts, t.var < size) :
    Returns (fun s : Store α => s.size = size) (tightenAll ts) fun _ last => last.size = size := by
  induction ts with
  | nil => exact .pure fun _ kept => kept
  | cons t rest ih =>
    apply Ends.bind (tighten_total (known t (by simp)))
    intro outcome
    split
    · exact .pure fun _ kept => kept
    · exact (ih fun later member => known later (by simp [member])).bind
        fun _ => .pure fun _ kept => kept

theorem tightenBounds_total {v : Variable} (known : v < size) (bounds : Interval α) :
    Returns (fun s : Store α => s.size = size) (tightenBounds v bounds)
      fun _ last => last.size = size := by
  refine tightenAll_total fun t member => ?_
  rcases List.mem_pair.mp member with rfl | rfl <;> exact known

theorem tightenFrom_total {first : Nat} {bounds : List (Interval α)}
    (fits : first + bounds.length ≤ size) :
    Returns (fun s : Store α => s.size = size) (tightenFrom first bounds)
      fun _ last => last.size = size := by
  rw [tightenFrom_eq]
  refine tightenAll_total fun t member => ?_
  obtain ⟨i, known, shape⟩ := Interval.mem_tighteningsFrom member
  have here : first + i < size := by omega
  rcases shape with rfl | rfl <;> exact here

theorem applySnapshot_total (snapshot : Snapshot α) :
    Returns (fun s : Store α => s.size = size) (applySnapshot snapshot)
      fun _ last => last.size = size := by
  apply Ends.get_bind
  intro s sized
  split
  · exact .pure fun _ same => same ▸ sized
  next sizes =>
    have fits : 0 + snapshot.bounds.toList.length ≤ size := by
      simp only [bne_iff_ne, ne_eq, not_not] at sizes
      rw [Array.length_toList, sizes, sized]
      omega
    exact ((tightenFrom_total fits).here sized).bind fun _ => .pure fun _ kept => kept

end Store

/-- On a store over `size` variables a deduction succeeds or finds a conflict, and the store that
it leaves on success is over them too. -/
abbrev Deduction.Faultless {β : Type} (size : Nat) (step : Deduction α β) : Prop :=
  Ends (fun s => s.size = size) step (fun _ last => last.size = size) fun cause _ => cause = .conflict

namespace Deduction

omit [Scalar α] in
theorem observe_faultless {β : Type} {f : Store α → Except Fault β} {property : β → Prop}
    (total : ∀ s, s.size = size → ∃ value, f s = .ok value ∧ property value) :
    Ends (fun s => s.size = size) (observe f)
      (fun value last => property value ∧ last.size = size) fun cause _ => cause = .conflict := by
  intro s sized
  obtain ⟨value, read, holds⟩ := total s sized
  simp only [observe, read]
  exact ⟨holds, sized⟩

theorem derive_faultless {t : Tightening α} (known : t.var < size) : Faultless size (derive t) := by
  intro s sized
  obtain ⟨outcome, last, run, kept⟩ := (Store.tighten_total known).run sized
  unfold derive
  rw [run]
  cases outcome with
  | accepted => exact kept
  | rejected => exact kept
  | infeasible => rfl

/-- Each rule reads off a tightening of a variable that the store has. -/
def RulesKnown (size : Nat) (rules : List (Store α → Except Fault (Tightening α))) : Prop :=
  ∀ rule ∈ rules, ∀ s : Store α, s.size = size → ∃ t, rule s = .ok t ∧ t.var < size

theorem deriveEach_faultless {rules : List (Store α → Except Fault (Tightening α))}
    (known : RulesKnown size rules) : Faultless size (deriveEach rules) := by
  induction rules with
  | nil => exact .pure fun _ kept => kept
  | cons rule rest ih =>
    apply Ends.bind (observe_faultless (known rule (by simp)))
    intro t
    apply Ends.through fun _ last => last.size = size
    · exact .from_state fun s both => (derive_faultless both.1).here both.2
    · intro _
      exact (ih fun later member => known later (by simp [member])).bind
        fun _ => .pure fun _ kept => kept

end Deduction

namespace Relu

open Deduction

variable {r : Relu} (input : r.b < size) (output : r.f < size)
include input output

theorem commonRules_known : RulesKnown size (r.commonRules (α := α)) := by
  intro rule member s sized
  obtain ⟨b, -, lowerB, upperB⟩ := s.interval_total sized input
  obtain ⟨f, -, -, upperF⟩ := s.interval_total sized output
  simp only [commonRules, List.mem_cons, List.not_mem_nil, or_false] at member
  rcases member with rfl | rfl | rfl | rfl
  · exact ⟨.lower r.f 0, rfl, output⟩
  · exact ⟨.lower r.f b.lower, by rw [copyLower, lowerB]; rfl, output⟩
  · exact ⟨.upper r.f (outputOf b.upper), by simp only [upperB]; rfl, output⟩
  · exact ⟨.upper r.b f.upper, by rw [copyUpper, upperF]; rfl, input⟩

theorem phaseRules_known (phase : Phase) : RulesKnown size (r.phaseRules (α := α) phase) := by
  intro rule member s sized
  obtain ⟨b, -, lowerB, upperB⟩ := s.interval_total sized input
  obtain ⟨f, -, lowerF, upperF⟩ := s.interval_total sized output
  cases phase with
  | active =>
    simp only [phaseRules, List.mem_cons, List.not_mem_nil, or_false] at member
    rcases member with rfl | rfl | rfl | rfl | rfl
    · exact ⟨.lower r.b 0, rfl, input⟩
    · exact ⟨.lower r.b f.lower, by rw [copyLower, lowerF]; rfl, input⟩
    · exact ⟨.lower r.f b.lower, by rw [copyLower, lowerB]; rfl, output⟩
    · exact ⟨.upper r.f b.upper, by rw [copyUpper, upperB]; rfl, output⟩
    · exact ⟨.upper r.b f.upper, by rw [copyUpper, upperF]; rfl, input⟩
  | inactive =>
    simp only [phaseRules, List.mem_cons, List.not_mem_nil, or_false] at member
    rcases member with rfl | rfl
    · exact ⟨.upper r.f 0, rfl, output⟩
    · exact ⟨.upper r.b 0, rfl, input⟩
  | unfixed => cases member

theorem phase_total {s : Store α} (sized : s.size = size) (t : Tolerance α) :
    ∃ phase, r.phase s t = .ok phase := by
  obtain ⟨b, intervalB, -⟩ := s.interval_total sized input
  obtain ⟨f, intervalF, -⟩ := s.interval_total sized output
  exact ⟨phaseWithin t b f, by rw [phase, intervalB, intervalF]; rfl⟩

theorem propagate_faultless (t : Tolerance α) : Faultless size (r.propagate t) := by
  apply Ends.bind (deriveEach_faultless (commonRules_known input output))
  intro common
  have total : ∀ s : Store α, s.size = size → ∃ phase, r.phase s t = .ok phase ∧ True := by
    intro s sized
    obtain ⟨phase, read⟩ := phase_total input output sized t
    exact ⟨phase, read, trivial⟩
  apply Ends.bind ((observe_faultless total).mono fun _ _ kept => kept.2)
  intro phase
  exact (deriveEach_faultless (phaseRules_known input output phase)).bind
    fun _ => .pure fun _ kept => kept

omit input output in
theorem propagateAll_faultless (t : Tolerance α) {relus : List Relu}
    (known : ∀ r ∈ relus, r.b < size ∧ r.f < size) : Faultless size (propagateAll t relus) := by
  induction relus with
  | nil => exact .pure fun _ kept => kept
  | cons r rest ih =>
    have inside := known r (by simp)
    apply Ends.bind (propagate_faultless inside.1 inside.2 t)
    intro _
    exact (ih fun other member => known other (by simp [member])).bind
      fun _ => .pure fun _ kept => kept

end Relu

namespace Effort

open Deduction

variable (effort : Effort α)

theorem improve_faultless {t : Tightening α} (known : t.var < size) :
    Faultless size (effort.improve t) := by
  have total : ∀ s : Store α, s.size = size → ∃ bounds, s.interval t.var = .ok bounds ∧ True := by
    intro s sized
    obtain ⟨bounds, read, -⟩ := s.interval_total sized known
    exact ⟨bounds, read, trivial⟩
  apply Ends.bind ((observe_faultless total).mono fun _ _ kept => kept.2)
  intro bounds
  split
  · exact derive_faultless known
  · exact .pure fun _ kept => kept

theorem examineTerms_faultless (row : Equation α) (range : RowRange α) {addends : List (Addend α)}
    (known : ∀ a ∈ addends, a.var < size) :
    Faultless size (effort.examineTerms row range addends) := by
  induction addends with
  | nil => exact .pure fun _ kept => kept
  | cons a rest ih =>
    have here : a.var < size := known a (by simp)
    have later := ih fun b member => known b (by simp [member])
    have total : ∀ s : Store α, s.size = size → ∃ bounds, s.interval a.var = .ok bounds ∧ True := by
      intro s sized
      obtain ⟨bounds, read, -⟩ := s.interval_total sized here
      exact ⟨bounds, read, trivial⟩
    unfold examineTerms
    split
    · exact later
    · apply Ends.bind ((observe_faultless total).mono fun _ _ kept => kept.2)
      intro bounds
      apply Ends.bind (effort.improve_faultless here)
      intro _
      apply Ends.bind (effort.improve_faultless here)
      intro _
      exact later.bind fun _ => .pure fun _ kept => kept

theorem ofRow_total {row : Equation α} (known : ∀ a ∈ row.addends, a.var < size) {s : Store α}
    (sized : s.size = size) : ∃ range, RowRange.ofRow row s = .ok range := by
  have each : ∀ (range : RowRange α) a, a ∈ row.addends → True → ∃ next,
      (return range.add (RowRange.ofTerm a.coefficient (← s.interval a.var)) : Except Fault _) =
        .ok next ∧ True := by
    intro range a member _
    obtain ⟨bounds, read, -⟩ := s.interval_total sized (known a member)
    exact ⟨_, by rw [read]; rfl, trivial⟩
  obtain ⟨range, run, -⟩ := @foldlM_total Fault _ _ _ (fun _ => True) _ _ trivial each
  exact ⟨range, run⟩

theorem examineRow_faultless {row : Equation α} (known : ∀ a ∈ row.addends, a.var < size) :
    Faultless size (effort.examineRow row) := by
  have total : ∀ s : Store α, s.size = size → ∃ range, RowRange.ofRow row s = .ok range ∧ True := by
    intro s sized
    obtain ⟨range, read⟩ := ofRow_total known sized
    exact ⟨range, read, trivial⟩
  have terms := ((observe_faultless total).mono fun _ _ kept => kept.2).bind fun range =>
    effort.examineTerms_faultless row range known
  unfold examineRow
  split
  · split
    · exact .pure fun _ kept => kept
    · exact .throw fun _ _ => rfl
  · exact terms

variable {rows : List (Equation α)}

theorem passOver_faultless (known : ∀ row ∈ rows, ∀ a ∈ row.addends, a.var < size) :
    Faultless size (effort.passOver rows) := by
  induction rows with
  | nil => exact .pure fun _ kept => kept
  | cons row rest ih =>
    apply Ends.bind (effort.examineRow_faultless (known row (by simp)))
    intro _
    exact (ih fun other member => known other (by simp [member])).bind
      fun _ => .pure fun _ kept => kept

theorem passes_faultless (known : ∀ row ∈ rows, ∀ a ∈ row.addends, a.var < size)
    (untilSaturation : Bool) (rounds : Nat) {pending : List (Equation α)} (chosen : pending ⊆ rows) :
    Faultless size (effort.passes rows untilSaturation rounds pending) := by
  induction rounds generalizing pending with
  | zero => exact .pure fun _ kept => kept
  | succ rounds ih =>
    apply Ends.bind (effort.passOver_faultless fun row member => known row (chosen member))
    intro tightened
    split
    · exact .pure fun _ kept => kept
    · exact (ih (List.filter_subset_self _)).bind fun _ => .pure fun _ kept => kept

theorem examineRows_faultless (known : ∀ row ∈ rows, ∀ a ∈ row.addends, a.var < size)
    (untilSaturation : Bool) : Faultless size (effort.examineRows rows untilSaturation) := by
  apply Ends.get_bind
  intro s sized
  have inside : (rows.any fun row => row.addends.any fun a => decide (s.size ≤ a.var)) = false := by
    rw [List.any_eq_false]
    intro row member
    rw [Bool.not_eq_true, List.any_eq_false]
    intro a term
    simpa [sized] using known row member a term
  dsimp only
  rw [inside]
  exact (effort.passes_faultless known untilSaturation _ (List.Subset.refl rows)).here sized

variable {equations derived : List (Equation α)} {relus : List Relu}

/-- Propagation over variables that the store has ends in no fault. -/
theorem propagate_faultless (stated : ∀ e ∈ equations, ∀ a ∈ e.addends, a.var < size)
    (implied : ∀ row ∈ derived, ∀ a ∈ row.addends, a.var < size)
    (phased : ∀ r ∈ relus, r.b < size ∧ r.f < size) :
    Faultless size (effort.propagate equations derived relus) := by
  have each : ∀ rounds, Faultless size (effort.propagateFor equations derived relus rounds) := by
    intro rounds
    induction rounds with
    | zero => exact .pure fun _ kept => kept
    | succ rounds ih =>
      apply Ends.through fun _ last => last.size = size
      · apply Ends.bind (effort.examineRows_faultless stated false)
        intro _
        apply Ends.bind (effort.examineRows_faultless implied false)
        intro _
        exact (Relu.propagateAll_faultless _ phased).bind fun _ => .pure fun _ kept => kept
      · intro news
        split
        · exact .pure fun _ kept => kept
        · exact ih.bind fun _ => .pure fun _ kept => kept
  exact each effort.rounds

theorem propagateQuery_faultless (q : Query α)
    (implied : ∀ row ∈ derived, ∀ a ∈ row.addends, a.var < q.size) :
    Faultless q.size (effort.propagateQuery q derived) :=
  effort.propagate_faultless q.equations_known implied q.relus_known

end Effort

theorem Query.storeWithin_total {q : Query α} {split : CaseSplit α}
    (known : ∀ t ∈ split.tightenings, t.var < q.size) (t : Tolerance α) :
    ∃ outcome s, q.storeWithin split t = .ok (outcome, s) ∧ s.size = q.size := by
  have entered : Returns (fun s : Store α => s.size = q.size) (q.enter split)
      fun _ last => last.size = q.size := by
    apply Ends.bind (Store.tightenFrom_total (by simp))
    intro outcome
    split
    · exact .pure fun _ kept => kept
    · exact (Store.tightenAll_total known).bind fun _ => .pure fun _ kept => kept
  let empty : Store α := ⟨Array.replicate q.size Cell.unbounded, .empty, .absent, t⟩
  have initialized : (Store.new t).initialize? q.size = .ok empty := if_pos rfl
  have sized : empty.size = q.size := by simp [empty, Store.size]
  obtain ⟨outcome, last, run, kept⟩ := entered.run sized
  exact ⟨outcome, last, by rw [storeWithin, initialized]; simp only [bind, Except.bind, run]; rfl, kept⟩

end ReluSolver
