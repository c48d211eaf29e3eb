import ReluSolver.Proofs.ReluFixpoint

/-! Examining rows until nothing is left to derive. A row that is not examined again has
nothing to say, because none of its variables has new bounds since it was examined. So
after a round without new bounds no row has anything to say, pending or not. -/

namespace ReluSolver

open Deduction

variable {α : Type} {s mid last other : Store α}

namespace Store

/-- At most the variables in `changed` have other bounds than before. -/
structure SameExcept (changed : List Variable) (s last : Store α) : Prop where
  size : last.size = s.size
  cells : ∀ v : Variable, v ∉ changed → last.cells[v]? = s.cells[v]?

namespace SameExcept

variable {changed earlier later : List Variable}

theorem refl : SameExcept changed s s := ⟨rfl, fun _ _ => rfl⟩

theorem trans (first : SameExcept earlier s mid) (second : SameExcept later mid last) :
    SameExcept (earlier ++ later) s last := by
  refine ⟨second.size.trans first.size, fun v absent => ?_⟩
  rw [List.mem_append, not_or] at absent
  exact (second.cells v absent.2).trans (first.cells v absent.1)

end SameExcept

theorem interval_congr [Scalar α] {v : Variable} (size : other.size = s.size)
    (cell : other.cells[v]? = s.cells[v]?) : other.interval v = s.interval v := by
  simp only [interval, lower, upper, Store.cell, cell, size]

end Store

variable [Scalar α]

namespace Deduction

variable {t : Tightening α} {isNew : Bool}

theorem derive_cases (run : derive t s = .ok isNew last) :
    (isNew = false ∧ s = last ∧ s.Rests t) ∨ (isNew = true ∧ Store.SameExcept [t.var] s last) := by
  unfold derive at run
  by_cases known : t.var < s.cells.size
  · rw [Store.tighten_known known] at run
    rcases Store.place_cases s t known with ⟨rests, placed⟩ | ⟨_, -, placed⟩
    · rw [placed] at run
      obtain ⟨rfl, rfl⟩ := EStateM.Result.ok.inj run
      exact .inl ⟨rfl, rfl, _, Array.getElem?_eq_getElem known, rests⟩
    · rw [placed] at run
      split at run
      next same => cases run
      next outcome changed feasible same =>
        obtain ⟨rfl, rfl⟩ := EStateM.Result.ok.inj run
        obtain ⟨rfl, rfl⟩ := EStateM.Result.ok.inj same
        refine .inr ⟨?_, by simp [Store.size], fun v absent => ?_⟩
        · split
          · rfl
          next crossed => exact absurd (if_neg crossed) feasible
        · exact Array.getElem?_set_ne known (by simpa [eq_comm] using absent)
      next same => cases same
  · obtain ⟨cause, stuck⟩ := Store.tighten_unknown known
    rw [stuck] at run
    cases run

theorem derive_eq_false : derive t s = .ok false last ↔ s = last ∧ s.Rests t := by
  constructor
  · intro run
    rcases derive_cases run with ⟨-, same, rests⟩ | ⟨isNew, -⟩
    · exact ⟨same, rests⟩
    · cases isNew
  · rintro ⟨rfl, rests⟩
    exact derive_rests rests

end Deduction

namespace Effort

variable (effort : Effort α)

section Bounds

variable {t : Tightening α} {isNew : Bool}

/-- A value is no gain, or no tighter than the bound that it is offered for. -/
def declines (t : Tightening α) (c : Cell α) : Bool :=
  !(effort.isGain t.side c.bounds t.value && c.improves t.side t.value)

theorem improve_eq_false : effort.improve t s = .ok false last ↔
    s = last ∧ ∃ c, s.cells[t.var]? = some c ∧ effort.declines t c = true := by
  have gained (c : Cell α) (found : s.cells[t.var]? = some c) :
      s.Rests t ↔ c.improves t.side t.value = false := by
    simp [Store.Rests, found]
  constructor
  · intro run
    obtain ⟨bounds, mid, observed, run⟩ := run_bind_eq_ok.mp run
    obtain ⟨held, rfl⟩ := observe_eq_ok.mp observed
    obtain ⟨c, found, rfl⟩ := Store.interval_eq_ok.mp held
    split at run
    next gain =>
      obtain ⟨rfl, rests⟩ := derive_eq_false.mp run
      exact ⟨rfl, c, found, by simp [declines, (gained c found).mp rests]⟩
    next noGain =>
      obtain ⟨-, rfl⟩ := EStateM.Result.ok.inj run
      exact ⟨rfl, c, found, by simp [declines, noGain]⟩
  · rintro ⟨rfl, c, found, declined⟩
    refine run_bind_eq_ok.mpr
      ⟨c.bounds, s, observe_eq_ok.mpr ⟨Store.interval_eq_ok.mpr ⟨c, found, rfl⟩, rfl⟩, ?_⟩
    split
    next gain =>
      have stays : c.improves t.side t.value = false := by simpa [declines, gain] using declined
      exact derive_rests ((gained c found).mpr stays)
    next => rfl

theorem improve_changes (run : effort.improve t s = .ok isNew last) :
    Store.SameExcept (List.replicate isNew.toNat t.var) s last := by
  obtain ⟨bounds, mid, observed, run⟩ := run_bind_eq_ok.mp run
  obtain ⟨-, rfl⟩ := observe_eq_ok.mp observed
  split at run
  · rcases derive_cases run with ⟨rfl, rfl, -⟩ | ⟨rfl, same⟩
    · exact .refl
    · exact same
  · obtain ⟨-, rfl⟩ := EStateM.Result.ok.inj run
    exact .refl

end Bounds

section Rows

variable {row : Equation α} {range : RowRange α} {addends : List (Addend α)} {news : List Variable}

/-- Neither of the values that the row offers to the variable of the term is taken. -/
def Spent (row : Equation α) (range : RowRange α) (a : Addend α) (c : Cell α) : Prop :=
  effort.declines (.lower a.var (offer row range a c.bounds).lower) c = true ∧
    effort.declines (.upper a.var (offer row range a c.bounds).upper) c = true

theorem examineTerms_eq_nil : effort.examineTerms row range addends s = .ok [] last ↔
    s = last ∧ ∀ a ∈ addends, effort.tolerance.isZero a.coefficient = false →
      ∃ c, s.cells[a.var]? = some c ∧ effort.Spent row range a c := by
  induction addends generalizing s with
  | nil => simp [examineTerms, EStateM.pure, Pure.pure]
  | cons a rest ih =>
    rw [List.forall_mem_cons, examineTerms]
    cases tiny : effort.tolerance.isZero a.coefficient with
    | true => simp [ih]
    | false =>
      simp only [Bool.false_eq_true, if_false, true_implies]
      constructor
      · intro run
        obtain ⟨bounds, s₁, observed, run⟩ := run_bind_eq_ok.mp run
        obtain ⟨held, rfl⟩ := observe_eq_ok.mp observed
        obtain ⟨c, found, rfl⟩ := Store.interval_eq_ok.mp held
        obtain ⟨below, s₂, lower, run⟩ := run_bind_eq_ok.mp run
        obtain ⟨above, s₃, upper, run⟩ := run_bind_eq_ok.mp run
        obtain ⟨later, s₄, others, run⟩ := run_bind_eq_ok.mp run
        obtain ⟨none, rfl⟩ := EStateM.Result.ok.inj run
        obtain ⟨neither, rfl⟩ := List.append_eq_nil_iff.mp none
        obtain ⟨rfl, rfl⟩ : below = false ∧ above = false := by
          cases below <;> cases above <;> simp at neither ⊢
        obtain ⟨rfl, c₁, found₁, lower⟩ := effort.improve_eq_false.mp lower
        obtain ⟨rfl, c₂, found₂, upper⟩ := effort.improve_eq_false.mp upper
        obtain rfl : c = c₁ := Option.some.inj (found.symm.trans found₁)
        obtain rfl : c = c₂ := Option.some.inj (found.symm.trans found₂)
        obtain ⟨rfl, spent⟩ := ih.mp others
        exact ⟨rfl, ⟨c, found, lower, upper⟩, spent⟩
      · rintro ⟨rfl, ⟨c, found, lower, upper⟩, spent⟩
        have held := Store.interval_eq_ok.mpr ⟨c, found, rfl⟩
        exact run_bind_eq_ok.mpr ⟨_, s, observe_eq_ok.mpr ⟨held, rfl⟩,
          run_bind_eq_ok.mpr ⟨false, s, effort.improve_eq_false.mpr ⟨rfl, c, found, lower⟩,
          run_bind_eq_ok.mpr ⟨false, s, effort.improve_eq_false.mpr ⟨rfl, c, found, upper⟩,
          run_bind_eq_ok.mpr ⟨[], s, ih.mpr ⟨rfl, spent⟩, rfl⟩⟩⟩⟩

theorem examineTerms_changes (run : effort.examineTerms row range addends s = .ok news last) :
    Store.SameExcept news s last ∧ ∀ v ∈ news, ∃ a ∈ addends, a.var = v := by
  induction addends generalizing s news with
  | nil =>
    obtain ⟨rfl, rfl⟩ := EStateM.Result.ok.inj run
    exact ⟨.refl, by simp⟩
  | cons a rest ih =>
    have further {vars : List Variable} (inside : ∀ v ∈ vars, ∃ b ∈ rest, b.var = v) :
        ∀ v ∈ vars, ∃ b ∈ a :: rest, b.var = v := by
      intro v member
      obtain ⟨b, later, same⟩ := inside v member
      exact ⟨b, List.mem_cons_of_mem _ later, same⟩
    unfold examineTerms at run
    split at run
    · obtain ⟨same, inside⟩ := ih run
      exact ⟨same, further inside⟩
    obtain ⟨bounds, s₁, observed, run⟩ := run_bind_eq_ok.mp run
    obtain ⟨-, rfl⟩ := observe_eq_ok.mp observed
    obtain ⟨below, s₂, lower, run⟩ := run_bind_eq_ok.mp run
    obtain ⟨above, s₃, upper, run⟩ := run_bind_eq_ok.mp run
    obtain ⟨later, s₄, others, run⟩ := run_bind_eq_ok.mp run
    obtain ⟨rfl, rfl⟩ := EStateM.Result.ok.inj run
    obtain ⟨same, inside⟩ := ih others
    have both : Store.SameExcept (List.replicate below.toNat a.var ++ List.replicate above.toNat a.var)
        s s₃ := (effort.improve_changes lower).trans (effort.improve_changes upper)
    rw [List.replicate_append_replicate] at both
    refine ⟨both.trans same, fun v member => ?_⟩
    rcases List.mem_append.mp member with here | there
    · exact ⟨a, by simp, (List.eq_of_mem_replicate here).symm⟩
    · exact further inside v there

theorem examineRow_changes (run : effort.examineRow row s = .ok news last) :
    Store.SameExcept news s last ∧ ∀ v ∈ news, ∃ a ∈ row.addends, a.var = v := by
  unfold examineRow at run
  split at run
  · split at run
    · obtain ⟨rfl, rfl⟩ := EStateM.Result.ok.inj run
      exact ⟨.refl, by simp⟩
    · cases run
  · obtain ⟨range, mid, observed, run⟩ := run_bind_eq_ok.mp run
    obtain ⟨-, rfl⟩ := observe_eq_ok.mp observed
    exact effort.examineTerms_changes run

def Agree (row : Equation α) (s other : Store α) : Prop :=
  other.size = s.size ∧ ∀ a ∈ row.addends, other.cells[a.var]? = s.cells[a.var]?

theorem ofRow_congr (agree : Agree row s other) : RowRange.ofRow row other = RowRange.ofRow row s := by
  have folded : ∀ (addends : List (Addend α)) (r : RowRange α), addends ⊆ row.addends →
      addends.foldlM (m := Except Fault)
        (fun r a => return r.add (RowRange.ofTerm a.coefficient (← other.interval a.var))) r =
      addends.foldlM (fun r a => return r.add (RowRange.ofTerm a.coefficient (← s.interval a.var))) r := by
    intro addends
    induction addends with
    | nil => exact fun _ _ => rfl
    | cons a rest ih =>
      intro r chosen
      obtain ⟨here, later⟩ := List.cons_subset.mp chosen
      rw [List.foldlM_cons, List.foldlM_cons, Store.interval_congr agree.1 (agree.2 a here)]
      exact bind_congr fun next => ih next later
  exact folded row.addends _ (List.Subset.refl _)

/-- A row has nothing to say to a store. -/
def Exhausts (row : Equation α) (s : Store α) : Prop := effort.examineRow row s = .ok [] s

theorem exhausts_of_nil (run : effort.examineRow row s = .ok [] last) : s = last := by
  unfold examineRow at run
  split at run
  · split at run
    · exact (EStateM.Result.ok.inj run).2
    · cases run
  · obtain ⟨range, mid, observed, run⟩ := run_bind_eq_ok.mp run
    obtain ⟨-, rfl⟩ := observe_eq_ok.mp observed
    exact (effort.examineTerms_eq_nil.mp run).1

theorem Exhausts.congr {effort : Effort α} (exhausts : effort.Exhausts row s) (agree : Agree row s other) :
    effort.Exhausts row other := by
  unfold Exhausts examineRow at exhausts ⊢
  split at exhausts
  next empty =>
    rw [if_pos empty]
    split at exhausts
    next zero =>
      rw [if_pos zero]
      rfl
    next => cases exhausts
  next nonempty =>
    rw [if_neg nonempty]
    obtain ⟨range, mid, observed, run⟩ := run_bind_eq_ok.mp exhausts
    obtain ⟨known, rfl⟩ := observe_eq_ok.mp observed
    refine run_bind_eq_ok.mpr ⟨range, other, observe_eq_ok.mpr ⟨?_, rfl⟩, ?_⟩
    · rw [ofRow_congr agree, known]
    · refine effort.examineTerms_eq_nil.mpr ⟨rfl, fun a member large => ?_⟩
      rw [agree.2 a member]
      exact (effort.examineTerms_eq_nil.mp run).2 a member large

omit [Scalar α] in
theorem Agree.of_sameExcept (same : Store.SameExcept news s last) (absent : mentions row news = false) :
    Agree row s last := by
  refine ⟨same.size, fun a member => same.cells a.var fun inside => ?_⟩
  have unmentioned := List.any_eq_false.mp absent a member
  simp [inside] at unmentioned

end Rows

section Rounds

variable {rows pending : List (Equation α)} {tightened : List Variable}

theorem passOver_changes (run : effort.passOver pending s = .ok tightened last) :
    Store.SameExcept tightened s last := by
  induction pending generalizing s tightened with
  | nil =>
    obtain ⟨rfl, rfl⟩ := EStateM.Result.ok.inj run
    exact .refl
  | cons row rest ih =>
    obtain ⟨first, s₁, examined, run⟩ := run_bind_eq_ok.mp run
    obtain ⟨later, s₂, others, run⟩ := run_bind_eq_ok.mp run
    obtain ⟨rfl, rfl⟩ := EStateM.Result.ok.inj run
    exact (effort.examineRow_changes examined).1.trans (ih others)

/-- A row whose variables get no new bounds in a pass has nothing to say after it. -/
theorem passOver_exhausts (run : effort.passOver pending s = .ok tightened last) :
    ∀ row ∈ pending, mentions row tightened = false → effort.Exhausts row last := by
  induction pending generalizing s tightened with
  | nil => simp
  | cons row rest ih =>
    obtain ⟨first, s₁, examined, run⟩ := run_bind_eq_ok.mp run
    obtain ⟨later, s₂, others, run⟩ := run_bind_eq_ok.mp run
    obtain ⟨rfl, rfl⟩ := EStateM.Result.ok.inj run
    intro r member absent
    have apart : mentions r first = false ∧ mentions r later = false := by
      simp only [mentions, List.any_eq_false] at absent ⊢
      constructor <;> intro a inside <;> have := absent a inside <;> simp_all
    rcases List.mem_cons.mp member with rfl | member
    · -- whatever the row had tightened it would mention
      obtain ⟨-, own⟩ := effort.examineRow_changes examined
      obtain rfl : first = [] := by
        refine List.eq_nil_iff_forall_not_mem.mpr fun v new => ?_
        obtain ⟨a, inside, rfl⟩ := own v new
        have unmentioned := List.any_eq_false.mp apart.1 a inside
        simp [new] at unmentioned
      obtain rfl := effort.exhausts_of_nil examined
      exact Exhausts.congr examined (.of_sameExcept (effort.passOver_changes others) apart.2)
    · exact ih others r member apart.2

/-- What makes a worklist of the pending rows: all the others have nothing to say. -/
def Covers (rows pending : List (Equation α)) (s : Store α) : Prop :=
  ∀ row ∈ rows, row ∈ pending ∨ effort.Exhausts row s

theorem Covers.passOver {effort : Effort α} (covers : effort.Covers rows pending s)
    (run : effort.passOver pending s = .ok tightened last) :
    effort.Covers rows (rows.filter (mentions · tightened)) last := by
  intro row member
  cases mentioned : mentions row tightened with
  | true => exact .inl (List.mem_filter.mpr ⟨member, mentioned⟩)
  | false =>
    right
    rcases covers row member with inside | exhausts
    · exact effort.passOver_exhausts run row inside mentioned
    · exact exhausts.congr (.of_sameExcept (effort.passOver_changes run) mentioned)

/-- The tightened variables of each pass that examining rows until saturation makes. -/
def passLog (rows : List (Equation α)) :
    (rounds : Nat) → (pending : List (Equation α)) → Deduction α (List (List Variable))
  | 0, _ => return []
  | rounds + 1, pending => do
    let tightened ← effort.passOver pending
    if tightened.isEmpty then return [tightened]
    return tightened :: (← passLog rows rounds (rows.filter (mentions · tightened)))

theorem passes_log {rounds news : Nat} (run : effort.passes rows true rounds pending s = .ok news last) :
    ∃ log, effort.passLog rows rounds pending s = .ok log last ∧ news = log.flatten.length := by
  induction rounds generalizing pending s news with
  | zero =>
    obtain ⟨rfl, rfl⟩ := EStateM.Result.ok.inj run
    exact ⟨[], rfl, rfl⟩
  | succ rounds ih =>
    obtain ⟨tightened, mid, passed, run⟩ := run_bind_eq_ok.mp run
    simp only [Bool.not_true, Bool.false_or] at run
    split at run
    next quiet =>
      obtain ⟨rfl, rfl⟩ := EStateM.Result.ok.inj run
      refine ⟨[tightened], run_bind_eq_ok.mpr ⟨_, _, passed, ?_⟩, by simp⟩
      rw [if_pos quiet]
      rfl
    next found =>
      obtain ⟨more, mid', rest, run⟩ := run_bind_eq_ok.mp run
      obtain ⟨rfl, rfl⟩ := EStateM.Result.ok.inj run
      obtain ⟨log, logged, rfl⟩ := ih rest
      refine ⟨tightened :: log, run_bind_eq_ok.mpr ⟨_, _, passed, ?_⟩, by simp⟩
      rw [if_neg found]
      exact run_bind_eq_ok.mpr ⟨log, _, logged, rfl⟩

/-- After a last pass without new bounds no row has anything to say. -/
theorem passLog_exhausts {rounds : Nat} {log : List (List Variable)}
    (covers : effort.Covers rows pending s)
    (run : effort.passLog rows rounds pending s = .ok log last) (quiet : log.getLast? = some []) :
    ∀ row ∈ rows, effort.Exhausts row last := by
  induction rounds generalizing pending s log with
  | zero =>
    obtain ⟨rfl, -⟩ := EStateM.Result.ok.inj run
    cases quiet
  | succ rounds ih =>
    obtain ⟨tightened, mid, passed, run⟩ := run_bind_eq_ok.mp run
    have next := covers.passOver passed
    split at run
    next nothing =>
      obtain ⟨-, rfl⟩ := EStateM.Result.ok.inj run
      obtain rfl := List.isEmpty_iff.mp nothing
      intro row member
      exact (next row member).resolve_left (by simp [mentions])
    next found =>
      obtain ⟨later, mid', rest, run⟩ := run_bind_eq_ok.mp run
      obtain ⟨rfl, rfl⟩ := EStateM.Result.ok.inj run
      refine ih next rest ?_
      cases later with
      | nil => exact absurd (by simpa using quiet) found
      | cons => rwa [List.getLast?_cons_cons] at quiet

theorem passOver_exhausted (exhausted : ∀ row ∈ rows, effort.Exhausts row s) :
    effort.passOver rows s = .ok [] s := by
  induction rows with
  | nil => rfl
  | cons row rest ih =>
    obtain ⟨here, later⟩ := List.forall_mem_cons.mp exhausted
    exact run_bind_eq_ok.mpr ⟨[], s, here, run_bind_eq_ok.mpr ⟨[], s, ih later, rfl⟩⟩

theorem passes_exhausted (exhausted : ∀ row ∈ rows, effort.Exhausts row s) (untilSaturation : Bool)
    (rounds : Nat) : effort.passes rows untilSaturation rounds rows s = .ok 0 s := by
  cases rounds with
  | zero => rfl
  | succ rounds =>
    refine run_bind_eq_ok.mpr ⟨[], s, effort.passOver_exhausted exhausted, ?_⟩
    simp only [List.isEmpty_nil, Bool.or_true, if_true]
    rfl

theorem examineRows_eq_ok {untilSaturation : Bool} {news : Nat} :
    effort.examineRows rows untilSaturation s = .ok news last ↔
      (∀ row ∈ rows, ∀ a ∈ row.addends, a.var < s.size) ∧
        effort.passes rows untilSaturation effort.rounds rows s = .ok news last := by
  have known : (∀ row ∈ rows, ∀ a ∈ row.addends, a.var < s.size) ↔
      ¬ (rows.any fun row => row.addends.any fun a => decide (s.size ≤ a.var)) = true := by
    simp
  rw [known]
  constructor
  · intro run
    obtain ⟨_, _, read, run⟩ := run_bind_eq_ok.mp run
    obtain ⟨rfl, rfl⟩ := EStateM.Result.ok.inj read
    dsimp only at run
    split at run
    · cases run
    next inside => exact ⟨inside, run⟩
  · rintro ⟨inside, run⟩
    refine run_bind_eq_ok.mpr ⟨s, s, rfl, ?_⟩
    dsimp only
    rw [if_neg inside]
    exact run

/-- Examining rows until saturation saturates, unless the number of rounds was too small. If its
last pass derives nothing then no row has anything to say, the ones that the pass left out
included: examining all of them again changes nothing. -/
theorem examineRows_saturates {news : Nat} (run : effort.examineRows rows true s = .ok news last) :
    ∃ log, effort.passLog rows effort.rounds rows s = .ok log last ∧ news = log.flatten.length ∧
      (log.getLast? = some [] → ∀ untilSaturation,
        effort.examineRows rows untilSaturation last = .ok 0 last) := by
  obtain ⟨known, passed⟩ := effort.examineRows_eq_ok.mp run
  obtain ⟨log, logged, total⟩ := effort.passes_log passed
  refine ⟨log, logged, total, fun quiet untilSaturation => ?_⟩
  have exhausted := effort.passLog_exhausts (fun _ member => .inl member) logged quiet
  have size := ((effort.examineRows_tightened s rows true).ok .refl run).size_eq
  exact effort.examineRows_eq_ok.mpr ⟨size ▸ known, effort.passes_exhausted exhausted untilSaturation _⟩

open Extended in
/-- Three passes, of which the last one leaves out the second row. -/
theorem examineRows_saturates_chain :
    let effort : Effort Extended := ⟨⟨finite (1 / 1000)⟩, 0, 5⟩
    let rows : List (Equation Extended) :=
      [⟨[⟨1, 2⟩, ⟨-2, 1⟩], 0⟩, ⟨[⟨1, 0⟩, ⟨1, 1⟩], 5⟩, ⟨[⟨1, 2⟩, ⟨-1, 3⟩], 0⟩]
    let s : Store Extended :=
      ⟨#[⟨⟨1, infinity⟩, false, false⟩, ⟨⟨2, infinity⟩, false, false⟩, Cell.unbounded, Cell.unbounded],
        ⟨[[]]⟩, .absent, ⟨0⟩⟩
    ∃ news last, effort.examineRows rows true s = .ok news last ∧
      effort.passLog rows effort.rounds rows s = .ok [[2, 0, 1, 3], [2, 3], []] last ∧
      ∀ untilSaturation, effort.examineRows rows untilSaturation last = .ok 0 last := by
  intro effort rows s
  have logged : (effort.passLog rows effort.rounds rows).run' s = some [[2, 0, 1, 3], [2, 3], []] := by
    decide +kernel
  have counted : (effort.examineRows rows true).run' s = some 6 := by decide +kernel
  obtain ⟨_, found⟩ := result_eq_some.mp logged
  obtain ⟨last, run⟩ := result_eq_some.mp counted
  obtain ⟨log, other, -, saturated⟩ := effort.examineRows_saturates run
  obtain ⟨rfl, rfl⟩ := EStateM.Result.ok.inj (found.symm.trans other)
  exact ⟨6, _, run, found, saturated rfl⟩

end Rounds

end Effort

end ReluSolver
