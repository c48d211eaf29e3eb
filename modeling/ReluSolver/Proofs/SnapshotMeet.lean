import ReluSolver.Proofs.RowGains
import ReluSolver.Proofs.SplitBounds

/-! Applying a snapshot takes the meet of its bounds and those of the store, variable by
variable. A snapshot is applied as a list of tightenings, so that the meet is the bounds
that a split of them computes, and two snapshots one after the other are one such list. -/

namespace ReluSolver

open Extended

namespace Interval

def meet (i j : Interval Extended) : Interval Extended :=
  ⟨Scalar.max i.lower j.lower, Scalar.min i.upper j.upper⟩

theorem all_meet {i : Interval Extended} (defined : i.Defined) : all.meet i = i := by
  obtain ⟨lower, upper⟩ := i
  have left : Scalar.max negInfinity lower = lower := by
    cases lower with
    | undefined => exact absurd rfl defined.1
    | negInfinity | finite | infinity => rfl
  have right : Scalar.min infinity upper = upper := by
    cases upper with
    | undefined => exact absurd rfl defined.2
    | negInfinity | finite | infinity => rfl
  exact congrArg₂ Interval.mk left right

end Interval

namespace CaseSplit

variable {v x : Nat} {i : Interval Extended} {offered : List (Interval Extended)}

theorem boundsOf_append (ts us : List (Tightening Extended)) (v : Variable)
    (i : Interval Extended) :
    boundsOf ⟨ts ++ us⟩ v i = boundsOf ⟨us⟩ v (boundsOf ⟨ts⟩ v i) := by
  simp [boundsOf]

theorem boundsOf_tighteningsFrom_cons (x : Variable) (first : Interval Extended)
    (rest : List (Interval Extended)) (v : Variable) (i : Interval Extended) :
    boundsOf ⟨Interval.tighteningsFrom x (first :: rest)⟩ v i =
      boundsOf ⟨Interval.tighteningsFrom (x + 1) rest⟩ v (if x = v then i.meet first else i) := by
  rw [Interval.tighteningsFrom, boundsOf_cons, boundsOf_cons]
  by_cases here : x = v <;>
    simp [here, Tightening.lower, Tightening.upper, Tightening.narrow, Interval.meet]

theorem boundsOf_tighteningsFrom_below (below : v < x) (i : Interval Extended) :
    boundsOf ⟨Interval.tighteningsFrom x offered⟩ v i = i := by
  induction offered generalizing x with
  | nil => rfl
  | cons first rest ih =>
    rw [boundsOf_tighteningsFrom_cons, if_neg below.ne']
    exact ih (Nat.lt_succ_of_lt below)

/-- The tightenings of a snapshot narrow the bounds of each variable to the meet with its own. -/
theorem boundsOf_tighteningsFrom {k : Nat} {j : Interval Extended} (found : offered[k]? = some j)
    (i : Interval Extended) :
    boundsOf ⟨Interval.tighteningsFrom x offered⟩ (x + k) i = i.meet j := by
  induction offered generalizing x k with
  | nil => cases found
  | cons first rest ih =>
    rw [boundsOf_tighteningsFrom_cons]
    cases k with
    | zero =>
      obtain rfl : first = j := Option.some.inj found
      rw [if_pos (show x = x + 0 from rfl)]
      exact boundsOf_tighteningsFrom_below (Nat.lt_succ_self x) _
    | succ k =>
      have apart : x ≠ x + (k + 1) := by omega
      have shift : x + (k + 1) = x + 1 + k := by omega
      rw [if_neg apart, shift]
      exact ih found

end CaseSplit

namespace Store

variable {s last mid given other : Store Extended} {ts us : List (Tightening Extended)}
  {outcome early late : Outcome}

/-- What applying the snapshot of another store comes to. -/
structure Meets (s given : Store Extended) (outcome : Outcome) (last : Store Extended) : Prop where
  infeasible_iff : outcome = .infeasible ↔ ∃ v bounds offered, s.interval v = .ok bounds ∧
    given.interval v = .ok offered ∧ (bounds.meet offered).Crosses s.tolerance
  bounds : outcome ≠ .infeasible → ∀ v bounds offered, s.interval v = .ok bounds →
    given.interval v = .ok offered → last.interval v = .ok (bounds.meet offered)
  accepted_iff : outcome ≠ .infeasible →
    (outcome = .accepted ↔ ∃ v, v < s.size ∧ last.interval v ≠ s.interval v)
  again : outcome ≠ .infeasible → applySnapshot given.snapshot last = .ok (.ok .rejected) last

section Snapshots

theorem applySnapshot_iff {snapshot : Snapshot Extended} (sized : snapshot.bounds.size = s.size) :
    applySnapshot snapshot s = .ok (.ok outcome) last ↔
      (tightenAll snapshot.tightenings s : EStateM.Result Fault _ _) = .ok outcome last := by
  have same := applySnapshot_eq snapshot s
  rw [if_pos sized] at same
  change applySnapshot snapshot s = EStateM.map Except.ok _ s at same
  rw [same, EStateM.map]
  cases tightenAll snapshot.tightenings s <;> simp

theorem snapshot_size (given : Store Extended) : given.snapshot.bounds.size = given.size :=
  Array.size_map

theorem snapshot_known (sized : given.size = s.size) :
    ∀ t ∈ given.snapshot.tightenings, t.var < s.size := by
  intro t member
  obtain ⟨i, known, shape⟩ := Interval.mem_tighteningsFrom member
  rw [Array.length_toList, snapshot_size, sized] at known
  rcases shape with rfl | rfl <;> exact (Nat.zero_add i).symm ▸ known

theorem boundsOf_snapshot {v : Variable} {offered : Interval Extended}
    (held : given.interval v = .ok offered) (bounds : Interval Extended) :
    CaseSplit.boundsOf ⟨given.snapshot.tightenings⟩ v bounds = bounds.meet offered := by
  obtain ⟨c, found, rfl⟩ := interval_eq_ok.mp held
  have listed : given.snapshot.bounds.toList[v]? = some c.bounds := by
    simp [snapshot, found]
  have met := CaseSplit.boundsOf_tighteningsFrom (x := 0) listed bounds
  rwa [Nat.zero_add] at met

end Snapshots

section Sound

variable {epsilon : ℚ} (same : s.tolerance.epsilon = finite epsilon) (positive : 0 ≤ epsilon)
  (sound : CellsSound s.tolerance s.cells)
include same positive sound

theorem tightenAll_again (known : ∀ t ∈ ts, t.var < s.size)
    (run : (tightenAll ts s : EStateM.Result Fault _ _) = .ok outcome last)
    (feasible : outcome ≠ .infeasible) :
    (tightenAll ts last : EStateM.Result Fault _ _) = .ok .rejected last := by
  have defined (v : Variable) := (sound v).toNumeric.defined
  have kept := (tightenAll_tightened s ts).ok .refl run
  have after := ((tightenAll_sound s.tolerance ts).ok ⟨rfl, sound⟩ run feasible).2
  rw [← kept.tolerance_eq] at same after
  have still {v : Variable} {bounds : Interval Extended} (held : last.interval v = .ok bounds) :
      CaseSplit.boundsOf ⟨ts⟩ v bounds = bounds := by
    have before := interval_known (kept.size_eq ▸ (interval_iff_cellOf.mp held).1)
    have meet := (tightenAll_interval (defined v) run feasible before).symm.trans held
    rw [← Except.ok.inj meet, ← CaseSplit.boundsOf_append]
    exact CaseSplit.boundsOf_congr (defined v) (by simp) v
  obtain ⟨outcome', last', run', -⟩ := (tightenAll_total known).run kept.size_eq
  have feasible' : outcome' ≠ .infeasible := by
    rw [ne_eq, tightenAll_infeasible_iff same positive after run']
    rintro ⟨v, bounds, held, crosses⟩
    obtain ⟨-, rfl⟩ := interval_iff_cellOf.mp held
    rw [still held, Interval.crosses_iff same positive (after v).toNumeric.defined] at crosses
    exact crosses (after v).consistent
  have unchanged : outcome' ≠ .accepted := by
    rw [ne_eq, tightenAll_accepted_iff (fun v => (after v).toNumeric.defined) run' feasible']
    rintro ⟨v, bounds, held, changed⟩
    exact changed (still held)
  cases outcome' with
  | accepted => exact absurd rfl unchanged
  | infeasible => exact absurd rfl feasible'
  | rejected =>
    obtain rfl := tightenAll_rejected run'
    exact run'

theorem meets_of_run (sized : given.size = s.size)
    (run : (tightenAll given.snapshot.tightenings s : EStateM.Result Fault _ _) =
      .ok outcome last) :
    s.Meets given outcome last := by
  have defined (v : Variable) := (sound v).toNumeric.defined
  have kept := (tightenAll_tightened s _).ok .refl run
  have offers {v : Variable} {bounds : Interval Extended} (held : s.interval v = .ok bounds) :
      ∃ offered, given.interval v = .ok offered :=
    ⟨_, interval_known (sized ▸ (interval_iff_cellOf.mp held).1)⟩
  refine ⟨?_, fun feasible v bounds offered held held' => ?_, fun feasible => ?_,
    fun feasible => ?_⟩
  · rw [tightenAll_infeasible_iff same positive sound run]
    constructor
    · rintro ⟨v, bounds, held, crosses⟩
      obtain ⟨offered, held'⟩ := offers held
      exact ⟨v, bounds, offered, held, held', boundsOf_snapshot held' bounds ▸ crosses⟩
    · rintro ⟨v, bounds, offered, held, held', crosses⟩
      exact ⟨v, bounds, held, boundsOf_snapshot held' bounds ▸ crosses⟩
  · obtain ⟨-, rfl⟩ := interval_iff_cellOf.mp held
    rw [← boundsOf_snapshot held']
    exact tightenAll_interval (defined v) run feasible held
  · rw [tightenAll_accepted_iff defined run feasible]
    constructor
    · rintro ⟨v, bounds, held, changed⟩
      obtain ⟨known, rfl⟩ := interval_iff_cellOf.mp held
      refine ⟨v, known, ?_⟩
      rw [tightenAll_interval (defined v) run feasible held, held]
      exact fun still => changed (Except.ok.inj still)
    · rintro ⟨v, known, changed⟩
      refine ⟨v, _, interval_known known, fun still => changed ?_⟩
      rw [tightenAll_interval (defined v) run feasible (interval_known known), still,
        interval_known known]
  · rw [applySnapshot_iff (by rw [snapshot_size, sized, kept.size_eq])]
    exact tightenAll_again same positive sound (snapshot_known sized) run feasible

end Sound

theorem tightenAll_pair
    (first : (tightenAll ts s : EStateM.Result Fault _ _) = .ok early mid)
    (second : (tightenAll us mid : EStateM.Result Fault _ _) = .ok late last) :
    ∃ outcome final, (tightenAll (ts ++ us) s : EStateM.Result Fault _ _) = .ok outcome final ∧
      (outcome = .infeasible ↔ early = .infeasible ∨ late = .infeasible) ∧
      (outcome ≠ .infeasible → final = last) := by
  rw [tightenAll_append, andThen_apply, first]
  cases early with
  | infeasible => exact ⟨_, mid, rfl, by simp, fun never => absurd rfl never⟩
  | accepted | rejected =>
    simp only [second]
    exact ⟨_, last, rfl, Outcome.merge_eq_infeasible, fun _ => rfl⟩

section Orders

/-- Of two snapshots applied in either order, one is infeasible or none is, and if none is then the
bounds are the same in the end. -/
theorem applySnapshot_comm {epsilon : ℚ} (same : s.tolerance.epsilon = finite epsilon)
    (positive : 0 ≤ epsilon) (sound : CellsSound s.tolerance s.cells)
    (sized : given.size = s.size) (sized' : other.size = s.size)
    (first : applySnapshot given.snapshot s = .ok (.ok early) mid)
    (second : applySnapshot other.snapshot mid = .ok (.ok late) last) :
    ∃ early' mid' late' last', applySnapshot other.snapshot s = .ok (.ok early') mid' ∧
      applySnapshot given.snapshot mid' = .ok (.ok late') last' ∧
      ((early' = .infeasible ∨ late' = .infeasible) ↔ (early = .infeasible ∨ late = .infeasible)) ∧
      (early ≠ .infeasible → late ≠ .infeasible →
        ∀ v, v < s.size → last'.interval v = last.interval v) := by
  rw [applySnapshot_iff (by rw [snapshot_size, sized])] at first
  have size := ((tightenAll_tightened s _).ok .refl first).size_eq
  rw [applySnapshot_iff (by rw [snapshot_size, sized', size])] at second
  obtain ⟨early', mid', first', size'⟩ :=
    (tightenAll_total (snapshot_known sized')).run (rfl : s.size = s.size)
  obtain ⟨late', last', second', -⟩ := (tightenAll_total (snapshot_known sized)).run size'
  refine ⟨early', mid', late', last', ?_, ?_, ?_⟩
  · rwa [applySnapshot_iff (by rw [snapshot_size, sized'])]
  · rwa [applySnapshot_iff (by rw [snapshot_size, sized, size'])]
  obtain ⟨outcome, final, run, conflict, ends⟩ := tightenAll_pair first second
  obtain ⟨outcome', final', run', conflict', ends'⟩ := tightenAll_pair first' second'
  obtain ⟨rfl, bounds⟩ := tightenAll_congr same positive sound
    (fun t => by simp only [List.mem_append, or_comm]) run run'
  refine ⟨conflict'.symm.trans conflict, fun feasible feasible' => ?_⟩
  have none : outcome' ≠ .infeasible := fun never =>
    (conflict.mp never).elim feasible feasible'
  rw [← ends none, ← ends' none]
  exact bounds none

theorem applySnapshot_fresh {epsilon : Extended}
    (valid : Tolerance.ofEpsilon epsilon = .ok s.tolerance)
    (sound : CellsSound s.tolerance s.cells) :
    ∃ fresh outcome last, (Store.new s.tolerance).initialize? s.size = .ok fresh ∧
      applySnapshot s.snapshot fresh = .ok (.ok outcome) last ∧ outcome ≠ .infeasible ∧
      ∀ v, v < s.size → last.interval v = s.interval v := by
  obtain ⟨made, e, shape, positive⟩ := Tolerance.ofEpsilon_valid valid
  have same : s.tolerance.epsilon = finite e := by rw [made, shape]
  let fresh : Store Extended :=
    { Store.new s.tolerance with cells := Array.replicate s.size .unbounded }
  have blank (v : Variable) : cellOf fresh.cells v = .unbounded := by
    simp only [fresh, cellOf, Array.getElem?_replicate]
    split <;> rfl
  have unbounded : CellsSound fresh.tolerance fresh.cells := by
    intro v
    rw [blank]
    exact all_sound valid
  have sized : s.size = fresh.size := by simp [fresh, size]
  obtain ⟨outcome, last, run, -⟩ :=
    (tightenAll_total (snapshot_known sized)).run (rfl : fresh.size = fresh.size)
  have meets := meets_of_run (s := fresh) same positive unbounded sized run
  have meet {v : Variable} {bounds offered : Interval Extended}
      (held : fresh.interval v = .ok bounds) (held' : s.interval v = .ok offered) :
      bounds.meet offered = offered := by
    obtain ⟨-, rfl⟩ := interval_iff_cellOf.mp held
    obtain ⟨-, rfl⟩ := interval_iff_cellOf.mp held'
    rw [blank]
    exact Interval.all_meet (sound v).toNumeric.defined
  have feasible : outcome ≠ .infeasible := by
    rw [ne_eq, meets.infeasible_iff]
    rintro ⟨v, bounds, offered, held, held', crosses⟩
    rw [meet held held'] at crosses
    obtain ⟨-, rfl⟩ := interval_iff_cellOf.mp held'
    exact (Interval.crosses_iff same positive (sound v).toNumeric.defined).mp crosses
      (sound v).consistent
  refine ⟨fresh, outcome, last, rfl, ?_, feasible, fun v known => ?_⟩
  · rwa [applySnapshot_iff (by rw [snapshot_size, sized])]
  · have held := interval_known (sized ▸ known : v < fresh.size)
    have held' := interval_known known
    rw [meets.bounds feasible v _ _ held held', meet held held', held']

end Orders

/-- Applying the snapshot of a store with as many variables takes the meet of the bounds. The order
of two snapshots does not matter, and a new store takes over all bounds, also infinite ones. -/
theorem applySnapshot_meets {epsilon : Extended}
    (valid : Tolerance.ofEpsilon epsilon = .ok s.tolerance)
    (consistent : ∀ v, v < s.size → s.isConsistent v = .ok true) :
    (∀ given : Store Extended, given.size = s.size →
      ∃ outcome last, applySnapshot given.snapshot s = .ok (.ok outcome) last ∧
        s.Meets given outcome last) ∧
    (∀ given other : Store Extended, given.size = s.size → other.size = s.size →
      ∀ early mid late last, applySnapshot given.snapshot s = .ok (.ok early) mid →
        applySnapshot other.snapshot mid = .ok (.ok late) last →
        ∃ early' mid' late' last', applySnapshot other.snapshot s = .ok (.ok early') mid' ∧
          applySnapshot given.snapshot mid' = .ok (.ok late') last' ∧
          ((early' = .infeasible ∨ late' = .infeasible) ↔
            (early = .infeasible ∨ late = .infeasible)) ∧
          (early ≠ .infeasible → late ≠ .infeasible →
            ∀ v, v < s.size → last'.interval v = last.interval v)) ∧
    ∃ fresh outcome last, (Store.new s.tolerance).initialize? s.size = .ok fresh ∧
      applySnapshot s.snapshot fresh = .ok (.ok outcome) last ∧ outcome ≠ .infeasible ∧
      ∀ v, v < s.size → last.interval v = s.interval v := by
  have sound := cellsSound_of_consistent valid consistent
  obtain ⟨made, e, shape, positive⟩ := Tolerance.ofEpsilon_valid valid
  have same : s.tolerance.epsilon = finite e := by rw [made, shape]
  refine ⟨fun given sized => ?_, fun given other sized sized' early mid late last => ?_, ?_⟩
  · obtain ⟨outcome, last, run, -⟩ :=
      (tightenAll_total (snapshot_known sized)).run (rfl : s.size = s.size)
    exact ⟨outcome, last, (applySnapshot_iff (by rw [snapshot_size, sized])).mpr run,
      meets_of_run same positive sound sized run⟩
  · exact applySnapshot_comm same positive sound sized sized'
  · exact applySnapshot_fresh valid sound

/-- A half-unbounded interval met with one that it crosses by no more than the tolerance, and then
taken over by a new store. -/
theorem applySnapshot_meets_crossed :
    let s := (Store.new ⟨finite (1 / 2)⟩).perform
      [.register, .register, .tightenBounds 0 ⟨finite (11 / 2), infinity⟩]
    let given := (Store.new ⟨finite (1 / 2)⟩).perform
      [.register, .register, .tightenBounds 0 ⟨1, 5⟩, .tighten (.lower 1 2)]
    Tolerance.ofEpsilon (finite (1 / 2)) = .ok s.tolerance ∧
      (∀ v, v < s.size → s.isConsistent v = .ok true) ∧ given.size = s.size ∧
      (∃ last, applySnapshot given.snapshot s = .ok (.ok .accepted) last ∧
        s.Meets given .accepted last ∧ last.interval 0 = .ok ⟨finite (11 / 2), 5⟩) ∧
      ∃ fresh outcome last, (Store.new s.tolerance).initialize? s.size = .ok fresh ∧
        applySnapshot s.snapshot fresh = .ok (.ok outcome) last ∧
        last.interval 0 = .ok ⟨finite (11 / 2), infinity⟩ := by
  intro s given
  have valid : Tolerance.ofEpsilon (finite (1 / 2)) = .ok s.tolerance := if_pos (by decide +kernel)
  have consistent : ∀ v, v < s.size → s.isConsistent v = .ok true := by decide +kernel
  have sized : given.size = s.size := by decide +kernel
  obtain ⟨each, -, fresh, outcome, last, made, run, -, taken⟩ :=
    applySnapshot_meets valid consistent
  refine ⟨valid, consistent, sized, ?_, fresh, outcome, last, made, run,
    taken 0 (by decide +kernel)⟩
  obtain ⟨outcome, last, run, meets⟩ := each given sized
  have told : (applySnapshot given.snapshot).run' s = some (.ok .accepted) := by decide +kernel
  obtain ⟨last', run'⟩ := result_eq_some.mp told
  obtain ⟨same, rfl⟩ := EStateM.Result.ok.inj (run.symm.trans run')
  obtain rfl := Except.ok.inj same
  have met := meets.bounds nofun 0 ⟨finite (11 / 2), infinity⟩ ⟨1, 5⟩ (by decide +kernel)
    (by decide +kernel)
  rw [show Interval.meet ⟨finite (11 / 2), infinity⟩ ⟨1, 5⟩ = ⟨finite (11 / 2), 5⟩ by
    decide +kernel] at met
  exact ⟨last, run, meets, met⟩

end Store

end ReluSolver
