import ReluSolver.Proofs.Steps
import ReluSolver.Bounds.Store

/-! Applying a snapshot is making a list of tightenings, so that what is known of such lists
is known of snapshots too. Tightenings in two parts make the second part unless the first
one is infeasible. -/

namespace ReluSolver

/-- The tightenings that a snapshot is applied as. -/
def Interval.tighteningsFrom {α : Type} (x : Variable) : List (Interval α) → List (Tightening α)
  | [] => []
  | bounds :: rest => .lower x bounds.lower :: .upper x bounds.upper :: tighteningsFrom (x + 1) rest

theorem Interval.mem_tighteningsFrom {α : Type} {first : Nat} {bounds : List (Interval α)}
    {t : Tightening α} (member : t ∈ tighteningsFrom first bounds) :
    ∃ i, ∃ known : i < bounds.length,
      t = .lower (first + i) bounds[i].lower ∨ t = .upper (first + i) bounds[i].upper := by
  induction bounds generalizing first with
  | nil => cases member
  | cons here rest ih =>
    rcases List.mem_cons.mp member with rfl | member
    · exact ⟨0, by simp, .inl rfl⟩
    rcases List.mem_cons.mp member with rfl | member
    · exact ⟨0, by simp, .inr rfl⟩
    obtain ⟨i, known, shape⟩ := ih member
    refine ⟨i + 1, by simpa using known, ?_⟩
    rwa [List.getElem_cons_succ, show first + (i + 1) = first + 1 + i by omega]

theorem Interval.tighteningsFrom_mem {α : Type} {first : Nat} {bounds : List (Interval α)} {i : Nat}
    (known : i < bounds.length) :
    .lower (first + i) bounds[i].lower ∈ tighteningsFrom first bounds ∧
      .upper (first + i) bounds[i].upper ∈ tighteningsFrom first bounds := by
  induction bounds generalizing first i with
  | nil => exact absurd known (Nat.not_lt_zero i)
  | cons here rest ih =>
    cases i with
    | zero => simp [tighteningsFrom]
    | succ i =>
      have later := @ih (first + 1) i (by simpa using known)
      rw [show first + 1 + i = first + (i + 1) by omega] at later
      simp only [List.getElem_cons_succ, tighteningsFrom, List.mem_cons, later, or_true, and_self]

def Snapshot.tightenings {α : Type} (snapshot : Snapshot α) : List (Tightening α) :=
  Interval.tighteningsFrom 0 snapshot.bounds.toList

namespace Outcome

variable {early late : Outcome}

theorem rejected_merge : rejected.merge late = late := by
  cases late <;> rfl

theorem merge_eq_rejected : early.merge late = rejected ↔ early = rejected ∧ late = rejected := by
  cases early <;> cases late <;> decide

theorem merge_eq_infeasible :
    early.merge late = infeasible ↔ early = infeasible ∨ late = infeasible := by
  cases early <;> cases late <;> decide

end Outcome

namespace Store

variable {α : Type} [Scalar α] {s last : Store α} {outcome : Outcome}

/-- Two steps that report outcomes: the second one is left out if the first one is infeasible. -/
def andThen (first second : Action Fault α Outcome) : Action Fault α Outcome := do
  let outcome ← first
  if outcome.isInfeasible then return .infeasible
  return outcome.merge (← second)

omit [Scalar α] in
theorem andThen_apply (first second : Action Fault α Outcome) (s : Store α) :
    andThen first second s = match first s with
      | .ok .infeasible mid => .ok .infeasible mid
      | .ok early mid =>
        match second mid with
        | .ok late last => .ok (early.merge late) last
        | .error cause last => .error cause last
      | .error cause mid => .error cause mid := by
  simp only [andThen, bind, EStateM.bind]
  cases first s with
  | error cause mid => rfl
  | ok early mid =>
    cases early with
    | infeasible => rfl
    | accepted | rejected =>
      change EStateM.bind second _ mid = _
      dsimp only
      unfold EStateM.bind
      cases second mid <;> rfl

omit [Scalar α] in
theorem andThen_assoc (first second third : Action Fault α Outcome) :
    andThen (andThen first second) third = andThen first (andThen second third) := by
  funext s
  rw [andThen_apply (andThen first second) third, andThen_apply first, andThen_apply first]
  cases first s with
  | error cause mid => rfl
  | ok early mid =>
    cases early with
    | infeasible => rfl
    | accepted | rejected =>
      simp only [andThen_apply second third]
      cases second mid with
      | error cause last => rfl
      | ok late last =>
        cases late with
        | infeasible => rfl
        | accepted | rejected =>
          cases run : third last with
          | error cause end' => simp [Outcome.merge, run]
          | ok outcome end' => cases outcome <;> simp [Outcome.merge, run]

theorem tightenAll_singleton (t : Tightening α) : tightenAll [t] = tighten t := by
  funext s
  change andThen (tighten t) (return .rejected) s = _
  rw [andThen_apply]
  cases tighten t s with
  | error => rfl
  | ok outcome last => cases outcome <;> rfl

theorem tightenAll_append (ts us : List (Tightening α)) :
    tightenAll (ts ++ us) = andThen (tightenAll ts) (tightenAll us) := by
  induction ts with
  | nil =>
    funext s
    rw [List.nil_append]
    change _ = andThen (return .rejected) _ s
    rw [andThen_apply]
    change _ = match tightenAll us s with | .ok late last => _ | .error cause last => _
    cases tightenAll us s with
    | error => rfl
    | ok outcome last => cases outcome <;> rfl
  | cons t rest ih =>
    change andThen (tighten t) (tightenAll (rest ++ us)) = andThen (andThen _ _) _
    rw [ih, andThen_assoc]

theorem tightenFrom_eq (x : Variable) (bounds : List (Interval α)) :
    tightenFrom x bounds = tightenAll (Interval.tighteningsFrom x bounds) := by
  induction bounds generalizing x with
  | nil => rfl
  | cons first rest ih =>
    change andThen (tightenBounds x first) (tightenFrom (x + 1) rest) = _
    rw [ih]
    exact (tightenAll_append [.lower x first.lower, .upper x first.upper] _).symm

theorem applySnapshot_eq (snapshot : Snapshot α) (s : Store α) :
    applySnapshot snapshot s =
      if snapshot.bounds.size = s.size then
        (Except.ok <$> tightenAll snapshot.tightenings :
          Action Fault α (Except BoundError Outcome)) s
      else .ok (.error (.snapshotMismatch snapshot.bounds.size s.size)) s := by
  rw [Snapshot.tightenings, ← tightenFrom_eq, map_eq_pure_bind]
  by_cases sizes : snapshot.bounds.size = s.size
  · rw [if_pos sizes]
    change (if (snapshot.bounds.size != s.size) = true then _ else _ : Action Fault α _) s = _
    rw [if_neg (by simp [sizes])]
  · rw [if_neg sizes]
    change (if (snapshot.bounds.size != s.size) = true then _ else _ : Action Fault α _) s = _
    rw [if_pos (by simp [sizes])]
    rfl

omit [Scalar α] in
theorem andThen_eq_ok {first second : Action Fault α Outcome}
    (run : andThen first second s = .ok outcome last) :
    (first s = .ok .infeasible last ∧ outcome = .infeasible) ∨
      ∃ early mid late, first s = .ok early mid ∧ early ≠ .infeasible ∧
        second mid = .ok late last ∧ outcome = early.merge late := by
  rw [andThen_apply] at run
  cases ran : first s with
  | error cause mid => simp [ran] at run
  | ok early mid =>
    cases early with
    | infeasible =>
      simp only [ran, EStateM.Result.ok.injEq] at run
      exact .inl ⟨by rw [run.2], run.1.symm⟩
    | accepted | rejected =>
      cases ran' : second mid with
      | error cause last => simp [ran, ran'] at run
      | ok late last =>
        simp only [ran, ran', EStateM.Result.ok.injEq] at run
        obtain ⟨rfl, rfl⟩ := run
        exact .inr ⟨_, mid, late, rfl, nofun, ran', rfl⟩

end Store

end ReluSolver
