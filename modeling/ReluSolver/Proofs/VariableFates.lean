import Mathlib.Data.List.Nodup
import Mathlib.Tactic.Common
import ReluSolver.Presolve.VariableMap
import ReluSolver.Proofs.Steps

/-! What the fates of variables say about their values: the chain of a merged variable
ends, and the values that a map gives agree along it. The kept variables and their new
numbers are two ways to name the same thing. -/

namespace ReluSolver.VariableMap

variable {α : Type} {m : VariableMap α}

section Fates

/-- Replaced variables have the values that the map says. -/
structure Respected (m : VariableMap α) (value : Variable → α) : Prop where
  fixed : ∀ v a, m.fixedValue? v = some a → value v = a
  merged : ∀ v target, m.target? v = some target → value v = value target

theorem isKept_iff {v : Nat} : m.isKept v = true ↔ m.fates[v]? = some .kept := by
  unfold isKept
  cases m.fates[v]? with
  | none => simp
  | some fate => cases fate <;> simp [Fate.isKept]

theorem known_of_isKept {v : Nat} (kept : m.isKept v = true) : v < m.size := by
  obtain ⟨inside, -⟩ := Array.getElem?_eq_some_iff.mp (isKept_iff.mp kept)
  exact inside

theorem target?_of_isKept {v : Nat} (kept : m.isKept v = true) : m.target? v = none := by
  rw [target?, isKept_iff.mp kept]

theorem fixedValue?_of_isKept {v : Nat} (kept : m.isKept v = true) : m.fixedValue? v = none := by
  rw [fixedValue?, isKept_iff.mp kept]

theorem fate_cases {v : Nat} (known : v < m.size) :
    m.isKept v = true ∨ (∃ a, m.fixedValue? v = some a) ∨ ∃ target, m.target? v = some target := by
  rw [isKept_iff]
  unfold fixedValue? target?
  rw [Array.getElem?_eq_getElem known]
  cases m.fates[v] with
  | kept => exact .inl rfl
  | fixed a => exact .inr (.inl ⟨a, rfl⟩)
  | merged target => exact .inr (.inr ⟨target, rfl⟩)

theorem isKept_identity {size v : Nat} : (identity size : VariableMap α).isKept v = true ↔ v < size := by
  rw [isKept_iff, identity, Array.getElem?_replicate]
  simp

theorem target?_identity {size v : Nat} : (identity size : VariableMap α).target? v = none := by
  unfold target? identity
  by_cases known : v < size <;> simp [known]

theorem fixedValue?_identity {size v : Nat} :
    (identity size : VariableMap α).fixedValue? v = none := by
  unfold fixedValue? identity
  by_cases known : v < size <;> simp [known]

theorem identity_respected (size : Nat) (value : Variable → α) :
    (identity size : VariableMap α).Respected value where
  fixed := by simp [fixedValue?_identity]
  merged := by simp [target?_identity]

variable {u v target : Nat} {a : α}

private theorem set_fate {v : Nat} (known : v < m.size) (fate : Fate α) (u : Nat) :
    (m.fates.setIfInBounds v fate)[u]? = if v = u then some fate else m.fates[u]? := by
  have inside : v < m.fates.size := known
  rw [Array.getElem?_setIfInBounds]
  simp [inside]

theorem isKept_fix (known : v < m.size) :
    (m.fix v a).isKept u = true ↔ u ≠ v ∧ m.isKept u = true := by
  rw [isKept_iff, isKept_iff, fix, set_fate known]
  split
  next same => simp [same]
  next other => simp [Ne.symm other]

theorem target?_fix (known : v < m.size) :
    (m.fix v a).target? u = if v = u then none else m.target? u := by
  unfold target? fix
  rw [set_fate known]
  by_cases same : v = u <;> simp [same]

theorem fixedValue?_fix (known : v < m.size) :
    (m.fix v a).fixedValue? u = if v = u then some a else m.fixedValue? u := by
  unfold fixedValue? fix
  rw [set_fate known]
  by_cases same : v = u <;> simp [same]

theorem isKept_merge (known : v < m.size) :
    (m.merge v target).isKept u = true ↔ u ≠ v ∧ m.isKept u = true := by
  rw [isKept_iff, isKept_iff, merge, set_fate known]
  split
  next same => simp [same]
  next other => simp [Ne.symm other]

theorem target?_merge (known : v < m.size) :
    (m.merge v target).target? u = if v = u then some target else m.target? u := by
  unfold target? merge
  rw [set_fate known]
  by_cases same : v = u <;> simp [same]

theorem fixedValue?_merge (known : v < m.size) :
    (m.merge v target).fixedValue? u = if v = u then none else m.fixedValue? u := by
  unfold fixedValue? merge
  rw [set_fate known]
  by_cases same : v = u <;> simp [same]

@[simp] theorem size_fix : (m.fix v a).size = m.size := by simp [fix, size]

@[simp] theorem size_merge : (m.merge v target).size = m.size := by simp [merge, size]

theorem fix_respected (kept : m.isKept v = true) {value : Variable → α} :
    (m.fix v a).Respected value ↔ m.Respected value ∧ value v = a := by
  have known := known_of_isKept kept
  constructor
  · intro respected
    refine ⟨⟨fun u b found => respected.fixed u b ?_, fun u t found => respected.merged u t ?_⟩,
      respected.fixed v a ?_⟩
    · rw [fixedValue?_fix known, if_neg]
      · exact found
      · rintro rfl
        cases (fixedValue?_of_isKept kept).symm.trans found
    · rw [target?_fix known, if_neg]
      · exact found
      · rintro rfl
        cases (target?_of_isKept kept).symm.trans found
    · rw [fixedValue?_fix known, if_pos rfl]
  · rintro ⟨respected, same⟩
    refine ⟨fun u b found => ?_, fun u t found => ?_⟩
    · rw [fixedValue?_fix known] at found
      split at found
      next equal => exact equal ▸ same.trans (Option.some.inj found)
      next => exact respected.fixed u b found
    · rw [target?_fix known] at found
      split at found
      · cases found
      · exact respected.merged u t found

theorem merge_respected (kept : m.isKept v = true) {value : Variable → α} :
    (m.merge v target).Respected value ↔ m.Respected value ∧ value v = value target := by
  have known := known_of_isKept kept
  constructor
  · intro respected
    refine ⟨⟨fun u b found => respected.fixed u b ?_, fun u t found => respected.merged u t ?_⟩,
      respected.merged v target ?_⟩
    · rw [fixedValue?_merge known, if_neg]
      · exact found
      · rintro rfl
        cases (fixedValue?_of_isKept kept).symm.trans found
    · rw [target?_merge known, if_neg]
      · exact found
      · rintro rfl
        cases (target?_of_isKept kept).symm.trans found
    · rw [target?_merge known, if_pos rfl]
  · rintro ⟨respected, same⟩
    refine ⟨fun u b found => ?_, fun u t found => ?_⟩
    · rw [fixedValue?_merge known] at found
      split at found
      · cases found
      · exact respected.fixed u b found
    · rw [target?_merge known] at found
      split at found
      next equal => exact equal ▸ Option.some.inj found ▸ same
      next => exact respected.merged u t found

end Fates

section Chains

def mergedCount (m : VariableMap α) : Nat := m.fates.countP Fate.isMerged

/-- Every chain stays among the variables and ends. -/
structure Settled (m : VariableMap α) : Prop where
  known : ∀ v target, m.target? v = some target → target < m.size
  ends : ∀ v, ∃ steps ≤ m.mergedCount, m.target? (m.follow steps v) = none

theorem identity_settled (size : Nat) : (identity size : VariableMap α).Settled where
  known := by simp [target?_identity]
  ends := fun v => ⟨0, Nat.zero_le _, target?_identity⟩

theorem follow_congr {other : VariableMap α} (same : ∀ v, other.target? v = m.target? v)
    (steps v : Nat) : other.follow steps v = m.follow steps v := by
  induction steps generalizing v with
  | zero => rfl
  | succ steps ih =>
    simp only [follow, same, ih]

theorem follow_of_end {v : Nat} (last : m.target? v = none) (steps : Nat) : m.follow steps v = v := by
  cases steps with
  | zero => rfl
  | succ steps => simp only [follow, last]

theorem follow_past_end {few many v : Nat} (last : m.target? (m.follow few v) = none)
    (more : few ≤ many) : m.follow many v = m.follow few v := by
  induction few generalizing many v with
  | zero => exact follow_of_end last many
  | succ few ih =>
    obtain ⟨many, rfl⟩ := Nat.exists_eq_add_of_le' (Nat.one_le_of_lt more)
    cases shape : m.target? v with
    | none => simp only [follow, shape]
    | some target =>
      simp only [follow, shape] at last ⊢
      exact ih last (Nat.le_of_succ_le_succ more)

theorem Settled.fix (settled : m.Settled) {v : Nat} (kept : m.isKept v = true) (a : α) :
    (m.fix v a).Settled := by
  have known := known_of_isKept kept
  have same : ∀ u, (m.fix v a).target? u = m.target? u := by
    intro u
    rw [target?_fix known]
    split
    next equal => exact (equal ▸ target?_of_isKept kept).symm
    next => rfl
  have count : (m.fix v a).mergedCount = m.mergedCount := by
    have inside : v < m.fates.size := known
    have found : m.fates[v] = .kept := by
      have := isKept_iff.mp kept
      rwa [Array.getElem?_eq_getElem inside, Option.some.injEq] at this
    simp only [mergedCount, VariableMap.fix, Array.setIfInBounds, inside, dif_pos]
    rw [Array.countP_set, found]
    simp [Fate.isMerged]
  refine ⟨fun u target found => ?_, fun u => ?_⟩
  · rw [size_fix]
    exact settled.known u target (same u ▸ found)
  obtain ⟨steps, few, last⟩ := settled.ends u
  exact ⟨steps, count ▸ few, by rw [follow_congr same, same]; exact last⟩

theorem Settled.merge (settled : m.Settled) {source target : Nat} (kept : m.isKept source = true)
    (other : m.isKept target = true) (apart : source ≠ target) : (m.merge source target).Settled := by
  have known := known_of_isKept kept
  have count : (m.merge source target).mergedCount = m.mergedCount + 1 := by
    have inside : source < m.fates.size := known
    have found : m.fates[source] = .kept := by
      have := isKept_iff.mp kept
      rwa [Array.getElem?_eq_getElem inside, Option.some.injEq] at this
    simp only [mergedCount, VariableMap.merge, Array.setIfInBounds, inside, dif_pos]
    rw [Array.countP_set, found]
    simp [Fate.isMerged]
  have last : (m.merge source target).target? target = none := by
    rw [target?_merge known, if_neg apart]
    exact target?_of_isKept other
  -- the old chain is followed up to its old end, which may go on by one step now
  have each : ∀ steps v, m.target? (m.follow steps v) = none →
      ∃ more ≤ steps + 1, (m.merge source target).target?
        ((m.merge source target).follow more v) = none := by
    intro steps
    induction steps with
    | zero =>
      intro v ended
      by_cases here : source = v
      · refine ⟨1, Nat.le_refl _, ?_⟩
        simpa only [follow, target?_merge known, if_pos here] using last
      · refine ⟨0, Nat.zero_le _, ?_⟩
        rw [follow, target?_merge known, if_neg here]
        exact ended
    | succ steps ih =>
      intro v ended
      by_cases here : source = v
      · refine ⟨1, by omega, ?_⟩
        simpa only [follow, target?_merge known, if_pos here] using last
      · cases shape : m.target? v with
        | none =>
          refine ⟨0, Nat.zero_le _, ?_⟩
          rw [follow, target?_merge known, if_neg here, shape]
        | some next =>
          simp only [follow, shape] at ended
          obtain ⟨more, few, finished⟩ := ih next ended
          refine ⟨more + 1, by omega, ?_⟩
          simpa only [follow, target?_merge known, if_neg here, shape] using finished
  refine ⟨fun u t found => ?_, fun u => ?_⟩
  · rw [target?_merge known] at found
    rw [size_merge]
    split at found
    · exact Option.some.inj found ▸ known_of_isKept other
    · exact settled.known u t found
  · obtain ⟨steps, few, ended⟩ := settled.ends u
    obtain ⟨more, fewer, finished⟩ := each steps u ended
    exact ⟨more, by omega, finished⟩

theorem Settled.representative_end (settled : m.Settled) (v : Nat) :
    m.target? (m.representative v) = none := by
  obtain ⟨steps, few, last⟩ := settled.ends v
  have small : m.mergedCount ≤ m.size := Array.countP_le_size
  rw [representative, follow_past_end last (by omega)]
  exact last

theorem Settled.representative_of_target (settled : m.Settled) {v target : Nat}
    (found : m.target? v = some target) : m.representative v = m.representative target := by
  obtain ⟨steps, few, last⟩ := settled.ends v
  have small : m.mergedCount ≤ m.size := Array.countP_le_size
  cases steps with
  | zero =>
    rw [follow, found] at last
    cases last
  | succ steps =>
    have whole : m.follow m.size v = m.follow (steps + 1) v := follow_past_end last (by omega)
    simp only [follow, found] at last whole
    rw [representative, representative, whole]
    exact (follow_past_end last (by omega)).symm

theorem Settled.representative_known (settled : m.Settled) {v : Nat} (known : v < m.size) :
    m.representative v < m.size := by
  have each : ∀ steps v, v < m.size → m.follow steps v < m.size := by
    intro steps
    induction steps with
    | zero => exact fun v known => known
    | succ steps ih =>
      intro v known
      cases found : m.target? v with
      | none => simpa only [follow, found] using known
      | some target => simpa only [follow, found] using ih target (settled.known v target found)
  exact each m.size v known

end Chains

section Numbers

theorem countP_take {v : Nat} (known : v ≤ m.size) :
    (m.fates.toList.take v).countP Fate.isKept = (List.range v).countP m.isKept := by
  induction v with
  | zero => rfl
  | succ v ih =>
    have inside : v < m.fates.toList.length := by
      rw [Array.length_toList]
      exact known
    rw [List.take_succ_eq_append_getElem inside, List.countP_append, List.range_succ,
      List.countP_append, ih (by omega)]
    congr 1
    have inside' : v < m.fates.size := by simpa using inside
    simp [isKept, Array.getElem?_eq_getElem inside']

theorem survivors_of_newIndex {v index : Nat} (found : m.newIndex? v = some index) :
    m.isKept v = true ∧ m.survivors[index]? = some v := by
  unfold newIndex? at found
  split at found
  next kept =>
    have known := known_of_isKept kept
    refine ⟨kept, ?_⟩
    obtain ⟨later, rest⟩ : ∃ k, m.size = v + (k + 1) := ⟨m.size - v - 1, by omega⟩
    rw [← Option.some.inj found, countP_take (by omega), survivors, rest, List.range_add,
      List.range_succ_eq_map, List.map_cons, List.filter_append, Nat.add_zero,
      List.filter_cons_of_pos kept, List.countP_eq_length_filter, List.getElem?_append_right (Nat.le_refl _)]
    simp
  next => cases found

theorem survivors_getD {v index : Nat} (found : m.newIndex? v = some index) :
    m.survivors.getD index 0 = v := by
  rw [List.getD_eq_getElem?_getD, (survivors_of_newIndex found).2]
  rfl

theorem newIndex_of_isKept {v : Nat} (kept : m.isKept v = true) :
    ∃ index, m.newIndex? v = some index ∧ index < m.survivors.length := by
  have shape : m.newIndex? v = some ((m.fates.toList.take v).countP Fate.isKept) := if_pos kept
  obtain ⟨inside, -⟩ := List.getElem?_eq_some_iff.mp (survivors_of_newIndex shape).2
  exact ⟨_, shape, inside⟩

theorem newIndex_injective {u v index : Nat} (first : m.newIndex? u = some index)
    (second : m.newIndex? v = some index) : u = v := by
  have same := (survivors_of_newIndex first).2.symm.trans (survivors_of_newIndex second).2
  exact Option.some.inj same

theorem newIndex_of_survivors {index : Nat} (inside : index < m.survivors.length) :
    m.isKept m.survivors[index] = true ∧ m.newIndex? m.survivors[index] = some index := by
  have kept : m.isKept m.survivors[index] = true := by
    have member := List.getElem_mem inside
    exact (List.mem_filter.mp member).2
  obtain ⟨other, found, -⟩ := newIndex_of_isKept kept
  have placed := (survivors_of_newIndex found).2
  obtain ⟨within, same⟩ := List.getElem?_eq_some_iff.mp placed
  have distinct : m.survivors.Nodup := List.nodup_range.filter _
  obtain rfl : other = index := (List.Nodup.getElem_inj_iff distinct).mp same
  exact ⟨kept, found⟩

end Numbers

section Values

theorem valueUnder?_known (settled : m.Settled) {solution : Assignment α}
    (enough : m.survivors.length ≤ solution.size) {v : Nat} (known : v < m.size) :
    ∃ a, m.valueUnder? v solution = some a := by
  have inside := settled.representative_known known
  rcases fate_cases inside with kept | ⟨a, fixed⟩ | ⟨target, merged⟩
  · obtain ⟨index, found, small⟩ := newIndex_of_isKept kept
    have present : index < solution.size := Nat.lt_of_lt_of_le small enough
    exact ⟨solution[index], by simp [valueUnder?, fixedValue?_of_isKept kept, found, present]⟩
  · exact ⟨a, by simp [valueUnder?, fixed]⟩
  · cases (settled.representative_end v).symm.trans merged

/-- A solution of the kept variables gives values to all of them. -/
theorem mapSolution?_spec [Inhabited α] (settled : m.Settled) {solution : Assignment α}
    (whole : solution.size = m.survivors.length) :
    ∃ values, m.mapSolution? solution = some values ∧ values.size = m.size ∧
      ∃ value : Variable → α, m.Respected value ∧ (∀ v, v < m.size → values[v]? = some (value v)) ∧
        ∀ v index, m.newIndex? v = some index → solution[index]? = some (value v) := by
  let value : Variable → α := fun v => (m.valueUnder? v solution).getD default
  have each : ∀ v ∈ List.range m.size, m.valueUnder? v solution = some (value v) := by
    intro v member
    obtain ⟨a, same⟩ := valueUnder?_known settled (Nat.le_of_eq whole.symm) (List.mem_range.mp member)
    simp [value, same]
  refine ⟨((List.range m.size).map value).toArray, ?_, by simp, value, ⟨?_, ?_⟩, ?_, ?_⟩
  · rw [mapSolution?, mapM_pure each]
    rfl
  · intro v a fixed
    have last : m.target? v = none := by
      unfold fixedValue? at fixed
      unfold target?
      split at fixed
      next shape => rw [shape]
      next => cases fixed
    have here : m.representative v = v := follow_of_end last _
    simp [value, valueUnder?, here, fixed]
  · intro v target found
    simp only [value, valueUnder?, settled.representative_of_target found]
  · intro v known
    simp [known]
  · intro v index found
    have kept := (survivors_of_newIndex found).1
    obtain ⟨other, same, small⟩ := newIndex_of_isKept kept
    obtain rfl : other = index := Option.some.inj (same.symm.trans found)
    have here : m.representative v = v := follow_of_end (target?_of_isKept kept) _
    have present : other < solution.size := whole ▸ small
    simp [value, valueUnder?, here, fixedValue?_of_isKept kept, found, present]

theorem mapSolution?_eq_some {solution values : Assignment α} :
    m.mapSolution? solution = some values ↔
      values.size = m.size ∧ ∀ v, v < m.size → m.valueUnder? v solution = values[v]? := by
  rw [mapSolution?, Option.map_eq_some_iff]
  constructor
  · rintro ⟨images, each, rfl⟩
    obtain ⟨length, same⟩ := List.forall₂_iff_get.mp (mapM_eq_some.mp each)
    rw [List.length_range] at length
    refine ⟨length.symm, fun v known => ?_⟩
    have here := same v (by simpa using known) (length ▸ known)
    rw [List.getElem?_toArray, List.getElem?_eq_getElem (length ▸ known)]
    simpa using here
  · rintro ⟨size, same⟩
    refine ⟨values.toList, mapM_eq_some.mpr (List.forall₂_iff_get.mpr ⟨by simp [size], ?_⟩), by simp⟩
    intro v known inside
    have present : v < values.size := by simpa using inside
    simpa [present] using same v (size ▸ present)

theorem valueUnder?_of_newIndex {v index : Nat} (found : m.newIndex? v = some index)
    (solution : Assignment α) : m.valueUnder? v solution = solution[index]? := by
  have kept := (survivors_of_newIndex found).1
  have here : m.representative v = v := follow_of_end (target?_of_isKept kept) _
  simp [valueUnder?, here, fixedValue?_of_isKept kept, found]

theorem Respected.follow {value : Variable → α} (respected : m.Respected value) (steps v : Nat) :
    value (m.follow steps v) = value v := by
  induction steps generalizing v with
  | zero => rfl
  | succ steps ih =>
    unfold VariableMap.follow
    split
    next target found => rw [ih, respected.merged v target found]
    next => rfl

theorem Respected.valueUnder? {value : Variable → α} (respected : m.Respected value)
    (settled : m.Settled) {solution : Assignment α}
    (numbered : ∀ v index, m.newIndex? v = some index → solution[index]? = some (value v)) {v : Nat}
    (known : v < m.size) : m.valueUnder? v solution = some (value v) := by
  have whole : value (m.representative v) = value v := respected.follow _ v
  rw [← whole]
  rcases fate_cases (settled.representative_known known) with kept | ⟨a, fixed⟩ | ⟨target, merged⟩
  · obtain ⟨index, found, -⟩ := newIndex_of_isKept kept
    simp [VariableMap.valueUnder?, fixedValue?_of_isKept kept, found, numbered _ index found]
  · simp [VariableMap.valueUnder?, fixed, respected.fixed _ a fixed]
  · cases (settled.representative_end v).symm.trans merged

end Values

end ReluSolver.VariableMap
