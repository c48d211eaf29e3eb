import ReluSolver.Proofs.FaultlessPresolve

/-! How many rounds simplifying takes. The rounds go on for as long as one of them changes
something. Whatever a round changes, a variable is replaced or an equation is dropped, and
neither comes back, so there is at most one round more than variables and equations. -/

namespace ReluSolver

namespace VariableMap

variable {α : Type} {m next : VariableMap α}

/-- Replacing a kept variable leaves one survivor less. -/
theorem survivors_replaced {v : Variable} (size : next.size = m.size) (kept : m.isKept v = true)
    (replaced : ∀ u, next.isKept u = true ↔ u ≠ v ∧ m.isKept u = true) :
    next.survivors.length + 1 = m.survivors.length := by
  have distinct : m.survivors.Nodup := List.nodup_range.filter _
  have member : v ∈ m.survivors :=
    List.mem_filter.mpr ⟨List.mem_range.mpr (known_of_isKept kept), kept⟩
  have others : next.survivors = m.survivors.erase v := by
    rw [distinct.erase_eq_filter, survivors, survivors, size, List.filter_filter]
    refine List.filter_congr fun u _ => Bool.eq_iff_iff.mpr ?_
    simpa using replaced u
  have positive := List.length_pos_of_mem member
  rw [others, List.length_erase_of_mem member]
  omega

theorem survivors_identity (size : Nat) :
    (identity size : VariableMap α).survivors.length ≤ size := by
  calc (identity size : VariableMap α).survivors.length
      ≤ (List.range (identity size : VariableMap α).size).length := List.length_filter_le _ _
    _ = size := by simp [VariableMap.size, identity]

end VariableMap

namespace Presolve

variable {α : Type} [Scalar α]

section Definitions

variable (q : Query α)

/-- Fixes a variable if that is possible, and marks that one was fixed. -/
def fixMarked (t : Tolerance α) (made : Bool × Draft α) (x : Variable) : Bool × Draft α :=
  (made.1 || (fixedAt? q t made.2 x).isSome, fixVariable q t made.2 x)

/-- One round, and whether it changed anything: whether it fixed a variable, merged a pair or
dropped an equation. -/
def round (effort : Effort α) (d : Draft α) : Except Setback (Bool × Draft α) := do
  let s ← match effort.propagate d.equations [] q.relus d.store with
    | .ok _ s => .ok s
    | .error cause _ => .error cause
  let marked := q.allVariables.foldl (fixMarked q effort.tolerance) (false, { d with store := s })
  let fixed := marked.2
  let merges := (fixed.equations.findSome? (aliasPair? q effort.tolerance)).isSome
  let merged ← mergePair q effort.tolerance fixed
  let next ← dropEmpty effort.tolerance merged
  let drops := next.equations.length != merged.equations.length
  return (marked.1 || merges || drops, next)

/-- Rounds one after another for as long as they change something: how many there are, and what
comes of them. Nothing limits their number. -/
inductive Loop (effort : Effort α) : Draft α → (count : Nat) → Except Setback (Draft α) → Prop where
  | stuck {d : Draft α} {cause : Setback} (run : round q effort d = .error cause) :
      Loop effort d 1 (.error cause)
  | settled {d last : Draft α} (run : round q effort d = .ok (false, last)) :
      Loop effort d 1 (.ok last)
  | again {d next : Draft α} {count : Nat} {result : Except Setback (Draft α)}
      (run : round q effort d = .ok (true, next)) (later : Loop effort next count result) :
      Loop effort d (count + 1) result

end Definitions

variable {q : Query α} {t : Tolerance α} {effort : Effort α} {d fixed merged next start : Draft α}

/-- A change leaves less to reduce, and otherwise as much is left as before. -/
def Leaves (before : Draft α) (changed : Bool) (after : Draft α) : Prop :=
  if changed then remaining after < remaining before else remaining after = remaining before

omit [Scalar α] in
theorem Leaves.trans {first second : Bool} (one : Leaves d first merged)
    (other : Leaves merged second next) : Leaves d (first || second) next := by
  unfold Leaves at *
  cases first <;> cases second <;> simp only [Bool.or_true, Bool.or_false, if_true, if_false,
    Bool.false_eq_true] at * <;> omega

omit [Scalar α] in
theorem Leaves.iff_less {changed : Bool} (leaves : Leaves d changed next) :
    remaining next < remaining d ↔ changed = true := by
  cases changed with
  | true => exact iff_of_true leaves rfl
  | false => exact iff_of_false (Nat.not_lt.mpr (Nat.le_of_eq (Eq.symm leaves))) nofun

section Reductions

theorem fixVariable_leaves (v : Variable) :
    Leaves d (fixedAt? q t d v).isSome (fixVariable q t d v) := by
  unfold fixVariable Leaves
  cases found : fixedAt? q t d v with
  | none => rfl
  | some value =>
    obtain ⟨-, kept, -⟩ := fixedAt?_spec found
    have known := VariableMap.known_of_isKept kept
    have fewer : (d.map.fix v value).survivors.length + 1 = d.map.survivors.length :=
      VariableMap.survivors_replaced VariableMap.size_fix kept fun _ => VariableMap.isKept_fix known
    simp only [Option.isSome_some, if_true, remaining, List.length_map]
    omega

/-- Marking what is fixed changes nothing, and the mark tells whether less is left. -/
theorem foldl_fixMarked (orderly : d.Orderly q) (vars : List Variable) {changed : Bool}
    (leaves : Leaves start changed d) :
    (vars.foldl (fixMarked q t) (changed, d)).2 = vars.foldl (fixVariable q t) d ∧
      Leaves start (vars.foldl (fixMarked q t) (changed, d)).1
        (vars.foldl (fixVariable q t) d) := by
  induction vars generalizing d changed with
  | nil => exact ⟨rfl, leaves⟩
  | cons v rest ih =>
    have still : (fixVariable q t d v).Orderly q := by
      unfold fixVariable
      split
      next value found => exact orderly.fix found
      next => exact orderly
    exact ih still (leaves.trans (fixVariable_leaves v))

theorem mergePair_leaves (orderly : d.Orderly q) (run : mergePair q t d = .ok merged) :
    Leaves d (d.equations.findSome? (aliasPair? q t)).isSome merged := by
  unfold mergePair at run
  unfold Leaves
  cases found : d.equations.findSome? (aliasPair? q t) with
  | none =>
    rw [found] at run
    rw [← Except.ok.inj run]
    rfl
  | some pair =>
    obtain ⟨source, target⟩ := pair
    rw [found] at run
    obtain ⟨bounds, -, run⟩ := bind_eq_ok.mp run
    split at run
    · cases run
    · cases run
    · obtain ⟨-, kept, -⟩ := orderly.pair found
      have known := VariableMap.known_of_isKept kept
      have fewer : (d.map.merge source target).survivors.length + 1 = d.map.survivors.length :=
        VariableMap.survivors_replaced VariableMap.size_merge kept
          fun _ => VariableMap.isKept_merge known
      rw [← Except.ok.inj run]
      simp only [Option.isSome_some, if_true, remaining, List.length_map]
      omega

theorem dropEmpty_leaves (run : dropEmpty t d = .ok next) :
    Leaves d (next.equations.length != d.equations.length) next := by
  unfold dropEmpty at run
  split at run
  · cases run
  · have fewer := List.length_filter_le (fun e : Equation α => !e.isEmpty) d.equations
    rw [← Except.ok.inj run]
    unfold Leaves
    simp only [bne_iff_ne, ne_eq, ite_not, remaining]
    split <;> omega

end Reductions

section Rounds

theorem round_stuck {cause : Setback} {s : Store α}
    (stuck : effort.propagate d.equations [] q.relus d.store = .error cause s) :
    round q effort d = .error cause := by
  rw [round, stuck]
  rfl

theorem round_propagated (orderly : d.Orderly q) {news : Nat} {s : Store α}
    (propagated : effort.propagate d.equations [] q.relus d.store = .ok news s) :
    ∃ fixes, Leaves d fixes (fixVariables q effort.tolerance { d with store := s }) ∧
      round q effort d = (do
        let fixed := fixVariables q effort.tolerance { d with store := s }
        let merged ← mergePair q effort.tolerance fixed
        let next ← dropEmpty effort.tolerance merged
        return (fixes || (fixed.equations.findSome? (aliasPair? q effort.tolerance)).isSome ||
          next.equations.length != merged.equations.length, next)) := by
  have kept := (effort.propagate_tightened d.store d.equations [] q.relus).ok .refl propagated
  have start : Reduces q effort.tolerance d { d with store := s } := .tighten .refl kept
  have began : Leaves d false { d with store := s } := rfl
  obtain ⟨marked, fixes⟩ := foldl_fixMarked (t := effort.tolerance) (start.orderly orderly)
    q.allVariables began
  refine ⟨_, fixes, ?_⟩
  rw [fixVariables, ← marked, round, propagated]
  rfl

theorem round_leaves (orderly : d.Orderly q) {changed : Bool}
    (run : round q effort d = .ok (changed, next)) :
    Reduces q effort.tolerance d next ∧ Leaves d changed next := by
  cases propagated : effort.propagate d.equations [] q.relus d.store with
  | error cause s =>
    rw [round_stuck propagated] at run
    cases run
  | ok news s =>
    obtain ⟨fixes, fixed, shape⟩ := round_propagated orderly propagated
    have kept := (effort.propagate_tightened d.store d.equations [] q.relus).ok .refl propagated
    have reached := ((Reduces.refl (q := q) (t := effort.tolerance)).tighten kept).fixVariables
    rw [shape] at run
    obtain ⟨merged, merges, run⟩ := bind_eq_ok.mp run
    obtain ⟨last, drops, run⟩ := bind_eq_ok.mp run
    obtain ⟨rfl, rfl⟩ := Prod.mk.inj (Except.ok.inj run)
    exact ⟨(reached.mergePair merges).dropEmpty drops,
      (fixed.trans (mergePair_leaves (reached.orderly orderly) merges)).trans
        (dropEmpty_leaves drops)⟩

theorem rounds_succ (orderly : d.Orderly q) (fuel : Nat) :
    rounds q effort (fuel + 1) d = (do
      let (changed, next) ← round q effort d
      if changed then rounds q effort fuel next else return next) := by
  have test : rounds q effort (fuel + 1) d = (do
      let made ← round q effort d
      if remaining made.2 < remaining d then rounds q effort fuel made.2 else return made.2) := by
    cases propagated : effort.propagate d.equations [] q.relus d.store with
    | error cause s =>
      rw [round_stuck propagated, rounds_stuck propagated]
      rfl
    | ok news s =>
      obtain ⟨fixes, -, shape⟩ := round_propagated orderly propagated
      rw [shape, rounds_propagated propagated]
      simp only [bind_assoc, pure_bind]
  rw [test]
  cases run : round q effort d with
  | error cause => rfl
  | ok made =>
    have less := (round_leaves orderly run).2.iff_less
    change (if remaining made.2 < remaining d then _ else _) = if made.1 = true then _ else _
    simp only [less]

/-- The loop comes to an end, after at most one round more than there is left to reduce. -/
theorem loop_ends (effort : Effort α) (orderly : d.Orderly q) :
    ∃ count result, Loop q effort d count result ∧ count ≤ remaining d + 1 := by
  -- a round that changes something leaves less, so the induction is on what is left
  induction left : remaining d using Nat.strong_induction_on generalizing d with
  | _ left ih =>
    cases run : round q effort d with
    | error cause => exact ⟨1, _, .stuck run, by omega⟩
    | ok made =>
      obtain ⟨changed, next⟩ := made
      obtain ⟨reduces, leaves⟩ := round_leaves orderly run
      cases changed with
      | false => exact ⟨1, _, .settled run, by omega⟩
      | true =>
        have less : remaining next < remaining d := leaves
        obtain ⟨count, result, later, few⟩ := ih _ (left ▸ less) (reduces.orderly orderly) rfl
        exact ⟨count + 1, result, .again run later, by omega⟩

/-- With enough fuel the rounds of a simplification give what the loop gives. -/
theorem Loop.rounds_eq (orderly : d.Orderly q) {count : Nat} {result : Except Setback (Draft α)}
    (loop : Loop q effort d count result) {fuel : Nat} (enough : count ≤ fuel) :
    rounds q effort fuel d = result := by
  induction loop generalizing fuel with
  | stuck run =>
    obtain ⟨fuel, rfl⟩ := Nat.exists_eq_add_of_le' enough
    rw [rounds_succ orderly, run]
    rfl
  | settled run =>
    obtain ⟨fuel, rfl⟩ := Nat.exists_eq_add_of_le' enough
    rw [rounds_succ orderly, run]
    rfl
  | again run _ ih =>
    obtain ⟨fuel, rfl⟩ := Nat.exists_eq_add_of_le' (Nat.le_of_add_left_le enough)
    rw [rounds_succ orderly, run]
    exact ih ((round_leaves orderly run).1.orderly orderly) (by omega)

end Rounds

/-- Simplifying a query refuses its bounds, or it comes to the end of its loop after at most one
round more than the query has variables and equations. What the loop gives is what simplifying goes
on with, and it ends with a query or refuses this one. -/
theorem simplify_terminates (distinct : ∀ e ∈ q.equations, e.vars.Nodup)
    (relus : ∀ r ∈ q.relus, r.b ≠ r.f) (effort : Effort α) :
    (¬ ∃ s, Entered q effort.tolerance s) ∧ simplify q effort = .error .conflict ∨
    ∃ s count result, Entered q effort.tolerance s ∧
      Loop q effort ⟨s, q.equations, .identity q.size⟩ count result ∧
      count ≤ q.size + q.equations.length + 1 ∧
      (simplify q effort = do
        let d ← result
        let simplified ← (rebuild q d).mapError Setback.fault
        return (simplified, d.map)) ∧
      (simplify q effort = .error .conflict ∨
        ∃ simplified map, simplify q effort = .ok (simplified, map)) := by
  rcases entered_or_conflict q effort with refused | ⟨s, entered, -, stages⟩
  · exact .inl refused
  have orderly := Draft.orderly_start (s := s) distinct
  obtain ⟨count, result, loop, few⟩ := loop_ends effort orderly
  have enough : count ≤ q.size + q.equations.length + 1 := by
    have survivors := VariableMap.survivors_identity (α := α) q.size
    unfold remaining at few
    dsimp only at few
    omega
  dsimp only at stages
  rw [loop.rounds_eq orderly few] at stages
  refine .inr ⟨s, count, result, entered, loop, enough, stages, ?_⟩
  cases run : simplify q effort with
  | error cause => exact .inl (congrArg _ (simplify_conflict distinct relus run))
  | ok made => exact .inr ⟨made.1, made.2, rfl⟩

/-- Coefficients that are opposite only up to the tolerance leave an equation with one variable,
which is merged again. -/
theorem simplify_terminates_residual :
    let effort : Effort Extended := ⟨⟨1 / 2⟩, 10, 1⟩
    let coarse : Query Extended := { Query.unconstrained 3 with
      bounds := #v[⟨0, 4⟩, ⟨0, 4⟩, ⟨0, 4⟩]
      equations := [⟨[⟨1, 0⟩, ⟨-(5 / 4), 1⟩], 0⟩, ⟨[⟨1, 1⟩, ⟨-1, 2⟩], 0⟩]
      equations_known := by decide }
    (∀ e ∈ coarse.equations, e.vars.Nodup) ∧ (∀ r ∈ coarse.relus, r.b ≠ r.f) ∧
      ∃ s count result, Entered coarse effort.tolerance s ∧
        Loop coarse effort ⟨s, coarse.equations, .identity coarse.size⟩ count result ∧ count ≤ 6 ∧
        ∃ simplified map, simplify coarse effort = .ok (simplified, map) ∧
          map.target? 1 = some 0 ∧ map.target? 0 = some 2 ∧ simplified.equations.length = 1 := by
  intro effort coarse
  have distinct : ∀ e ∈ coarse.equations, e.vars.Nodup := by decide
  have relus : ∀ r ∈ coarse.relus, r.b ≠ r.f := by decide
  have reduced : (simplify coarse effort).toOption.map (fun made =>
      (made.2.target? 1, made.2.target? 0, made.1.equations.length)) = some (some 0, some 2, 1) := by
    decide +kernel
  obtain ⟨⟨simplified, map⟩, run, each⟩ := toOption_map_eq_some reduced
  obtain ⟨first, second, length⟩ : _ ∧ _ ∧ _ := by simpa only [Prod.mk.injEq] using each
  refine ⟨distinct, relus, ?_⟩
  rcases simplify_terminates distinct relus effort with
    ⟨-, refused⟩ | ⟨s, count, result, entered, loop, few, -⟩
  · cases refused.symm.trans run
  · exact ⟨s, count, result, entered, loop, few, simplified, map, run, first, second, length⟩

end Presolve

end ReluSolver
