import Mathlib.Logic.Relation
import ReluSolver.Proofs.PresolveCorrespondence

/-! The map that simplifying a query leaves behind. It accounts for every variable of the
query, whatever the numbers in the query are, and what it says fits the simplified query. -/

namespace ReluSolver

namespace VariableMap

variable {α : Type} {m : VariableMap α}

section Chains

/-- One step along a chain of merged variables. -/
def Merges (m : VariableMap α) (source target : Variable) : Prop := m.target? source = some target

theorem follow_reaches (steps v : Nat) : Relation.ReflTransGen m.Merges v (m.follow steps v) := by
  induction steps generalizing v with
  | zero => exact .refl
  | succ steps ih =>
    unfold follow
    split
    next target found => exact .head found (ih target)
    next => exact .refl

theorem Settled.acyclic (settled : m.Settled) (v : Variable) : ¬ Relation.TransGen m.Merges v v := by
  -- the induction is on the number of steps after which a chain ends
  have each : ∀ steps v, m.target? (m.follow steps v) = none → ¬ Relation.TransGen m.Merges v v := by
    intro steps
    induction steps with
    | zero =>
      intro v last cycle
      obtain ⟨target, first, -⟩ := Relation.TransGen.head'_iff.mp cycle
      cases last.symm.trans first
    | succ steps ih =>
      intro v last cycle
      obtain ⟨target, first, rest⟩ := Relation.TransGen.head'_iff.mp cycle
      simp only [follow, show m.target? v = some target from first] at last
      exact ih target last (.tail' rest first)
  obtain ⟨steps, -, last⟩ := settled.ends v
  exact each steps v last

end Chains

section Numbers

theorem newIndex_lt {u v i j : Nat} (first : m.newIndex? u = some i) (second : m.newIndex? v = some j) :
    i < j ↔ u < v := by
  have ascending : m.survivors.Pairwise (· < ·) := List.pairwise_lt_range.filter _
  obtain ⟨inside, hereU⟩ := List.getElem?_eq_some_iff.mp (survivors_of_newIndex first).2
  obtain ⟨inside', hereV⟩ := List.getElem?_eq_some_iff.mp (survivors_of_newIndex second).2
  constructor
  · intro less
    have := List.pairwise_iff_getElem.mp ascending i j inside inside' less
    rwa [hereU, hereV] at this
  · intro less
    by_contra other
    rcases Nat.lt_or_eq_of_le (Nat.not_lt.mp other) with more | rfl
    · have := List.pairwise_iff_getElem.mp ascending j i inside' inside more
      rw [hereU, hereV] at this
      exact Nat.lt_asymm less this
    · exact Nat.ne_of_lt less (hereU.symm.trans hereV)

theorem newIndex_isSome {v : Nat} : (m.newIndex? v).isSome = m.isKept v := by
  unfold newIndex?
  cases m.isKept v <;> rfl

theorem newIndex_onto {i : Nat} :
    i < m.survivors.length ↔ ∃ v < m.size, m.newIndex? v = some i := by
  constructor
  · intro inside
    obtain ⟨kept, found⟩ := newIndex_of_survivors inside
    exact ⟨_, known_of_isKept kept, found⟩
  · rintro ⟨v, -, found⟩
    exact (List.getElem?_eq_some_iff.mp (survivors_of_newIndex found).2).1

theorem isKept_iff_not_replaced {v : Nat} (known : v < m.size) :
    m.isKept v = true ↔ m.isFixed v = false ∧ m.isMerged v = false := by
  unfold isKept isFixed isMerged
  rw [Array.getElem?_eq_getElem known]
  cases m.fates[v] <;> simp [Fate.isKept, Fate.isFixed, Fate.isMerged]

theorem isFixed_of_isMerged {v : Nat} (merged : m.isMerged v = true) : m.isFixed v = false := by
  unfold isFixed isMerged at *
  cases shape : m.fates[v]? with
  | none => rfl
  | some fate =>
    rw [shape] at merged
    cases fate <;> first | rfl | cases merged

/-- The end of a chain has a value or a new number, and not both. -/
theorem Settled.representative_xor (settled : m.Settled) {v : Nat} (known : v < m.size) :
    Xor (m.isFixed (m.representative v) = true)
      ((m.newIndex? (m.representative v)).isSome = true) := by
  have last := settled.representative_end v
  have inside : m.representative v < m.fates.size := settled.representative_known known
  rw [newIndex_isSome]
  unfold isFixed isKept target? at *
  rw [Array.getElem?_eq_getElem inside] at last ⊢
  cases shape : m.fates[m.representative v] with
  | merged target =>
    rw [shape] at last
    cases last
  | kept | fixed _ => simp [Xor, Fate.isFixed, Fate.isKept]

end Numbers

/-- The way back is open to the assignments that have a value for each kept variable, and to no
others. -/
theorem mapSolution?_isSome (settled : m.Settled) {solution : Assignment α} :
    (m.mapSolution? solution).isSome = true ↔ m.survivors.length ≤ solution.size := by
  rw [mapSolution?, Option.isSome_map, mapM_isSome]
  constructor
  · intro each
    by_contra short
    obtain ⟨kept, found⟩ := newIndex_of_survivors (Nat.not_le.mp short)
    have value := each _ (List.mem_range.mpr (known_of_isKept kept))
    rw [valueUnder?_of_newIndex found] at value
    simp at value
  · intro enough v member
    exact Option.isSome_iff_exists.mpr (valueUnder?_known settled enough (List.mem_range.mp member))

/-- What a map says about the variables of a query, of the equations that remain of it, and of the
simplified query. -/
structure Accounts [Scalar α] (m : VariableMap α) (q : Query α) (remaining : List (Equation α))
    (simplified : Query α) : Prop where
  size : m.size = q.size
  /-- A chain ends at a variable that has a value or a new number, and not both. -/
  ends : ∀ v, v < q.size → Relation.ReflTransGen m.Merges v (m.representative v) ∧
    m.target? (m.representative v) = none ∧
    Xor (m.isFixed (m.representative v) = true) ((m.newIndex? (m.representative v)).isSome = true)
  acyclic : ∀ v, ¬ Relation.TransGen m.Merges v v
  disjoint : ∀ v, ¬ (m.isFixed v = true ∧ m.isMerged v = true)
  shielded : ∀ v, Presolve.isProtected q v = true → m.isFixed v = false ∧ m.isMerged v = false
  numbered : ∀ v, v < q.size →
    ((m.newIndex? v).isSome = true ↔ m.isFixed v = false ∧ m.isMerged v = false)
  onto : ∀ i, i < simplified.size ↔ ∃ v < q.size, m.newIndex? v = some i
  ordered : ∀ u v i j, m.newIndex? u = some i → m.newIndex? v = some j → (i < j ↔ u < v)
  equations : List.Forall₂ (fun e renamed => renamed.scalar = e.scalar ∧
    List.Forall₂ (fun a b => b.coefficient = a.coefficient ∧ m.newIndex? a.var = some b.var)
      e.addends renamed.addends) remaining simplified.equations
  relus : List.Forall₂ (fun r renamed => m.newIndex? r.b = some renamed.b ∧
    m.newIndex? r.f = some renamed.f) q.relus simplified.relus
  inputs : List.Forall₂ (fun v index => m.newIndex? v = some index) q.inputs simplified.inputs
  outputs : List.Forall₂ (fun v index => m.newIndex? v = some index) q.outputs simplified.outputs
  back : ∀ s, (m.mapSolution? s).isSome = true ↔ simplified.size ≤ s.size

end VariableMap

namespace Presolve

variable {α : Type} [Scalar α] {q simplified : Query α} {d : Draft α}

/-- Equations name a variable once, and so do the inputs and the outputs. -/
structure Distinct (q : Query α) : Prop where
  equations : ∀ e ∈ q.equations, e.vars.Nodup
  inputs : q.inputs.Nodup
  outputs : q.outputs.Nodup

theorem distinct_of_wellFormed {q : Query Extended} (formed : q.WellFormed) : Distinct q :=
  ⟨fun e member => (formed.equations e member).distinct, formed.inputs, formed.outputs⟩

omit [Scalar α] in
theorem known_of_isProtected {v : Variable} (shielded : isProtected q v = true) : v < q.size := by
  simp only [isProtected, Query.isInput, Query.isOutput, Query.inRelu, Relu.participates,
    Bool.or_eq_true, List.contains_iff_mem, List.any_eq_true, beq_iff_eq] at shielded
  rcases shielded with (input | output) | ⟨r, member, rfl | rfl⟩
  · exact q.inputs_known v input
  · exact q.outputs_known v output
  · exact (q.relus_known r member).1
  · exact (q.relus_known r member).2

theorem Draft.Orderly.accounts (orderly : d.Orderly q) (inputs : q.inputs.Nodup)
    (outputs : q.outputs.Nodup) (run : rebuild q d = .ok simplified) :
    d.map.Accounts q d.equations simplified := by
  have rebuilt := rebuild_rebuilt run
  obtain ⟨namedInputs, namedOutputs⟩ := rebuild_roles inputs outputs run
  have replaced (v : Variable) (known : v < q.size) :=
    VariableMap.isKept_iff_not_replaced (m := d.map) (orderly.size.symm ▸ known)
  refine ⟨orderly.size, fun v known => ⟨VariableMap.follow_reaches _ v,
    orderly.settled.representative_end v,
    orderly.settled.representative_xor (orderly.size.symm ▸ known)⟩,
    orderly.settled.acyclic, fun v both => ?_, fun v shielded => ?_, fun v known => ?_, fun i => ?_,
    fun _ _ _ _ => VariableMap.newIndex_lt, ?_, rebuilt.relus, namedInputs, namedOutputs, fun s => ?_⟩
  · exact absurd ((VariableMap.isFixed_of_isMerged both.2).symm.trans both.1) Bool.false_ne_true
  · have known := known_of_isProtected shielded
    exact (replaced v known).mp (orderly.shielded v known shielded)
  · rw [VariableMap.newIndex_isSome, replaced v known]
  · rw [rebuilt.size, VariableMap.newIndex_onto, orderly.size]
  · refine rebuilt.equations.imp fun e renamed named => ?_
    unfold Equation.rename at named
    cases shape : Equation.renameAddends (newIndex d.map) e.addends with
    | mk addends outcome =>
      rw [shape] at named
      obtain ⟨rfl, rfl⟩ := Prod.mk.inj named
      exact ⟨rfl, (Equation.renameAddends_spec shape).imp fun a b both =>
        ⟨both.1, newIndex_eq_ok.mp both.2⟩⟩
  · rw [VariableMap.mapSolution?_isSome orderly.settled, rebuilt.size]

/-- The map that simplifying returns accounts for the query, the equations that its reductions left,
and the simplified query. What has replaced a variable on the way is what the map says. -/
theorem simplify_accounts {effort : Effort α} {map : VariableMap α} (distinct : Distinct q)
    (run : simplify q effort = .ok (simplified, map)) :
    ∃ s d, Entered q effort.tolerance s ∧
      Reduces q effort.tolerance ⟨s, q.equations, .identity q.size⟩ d ∧ d.map = map ∧
      map.Accounts q d.equations simplified ∧
      ∀ between, Reduces q effort.tolerance ⟨s, q.equations, .identity q.size⟩ between →
        Reduces q effort.tolerance between d → ∀ v, between.map.isKept v = false →
          map.fixedValue? v = between.map.fixedValue? v ∧ map.target? v = between.map.target? v := by
  obtain ⟨s, d, entered, reduces, built, rfl⟩ := simplify_stages run
  have start := Draft.orderly_start (s := s) distinct.equations
  refine ⟨s, d, entered, reduces, rfl,
    (reduces.orderly start).accounts distinct.inputs distinct.outputs built, ?_⟩
  intro between before after v gone
  exact (after.replaced (before.orderly start) gone).2

open Extended in
/-- One variable is merged into another one, which is merged into a third one, which is fixed. -/
theorem simplify_accounts_chain :
    let effort : Effort Extended := ⟨⟨0⟩, 10, 1⟩
    let chained : Query Extended := { Query.unconstrained 6 with
      bounds := #v[.all, ⟨0, 3⟩, ⟨0, 1⟩, ⟨1, 2⟩, .all, .all]
      equations := [⟨[⟨1, 3⟩, ⟨-1, 4⟩], 0⟩, ⟨[⟨1, 2⟩, ⟨-1, 3⟩], 0⟩, ⟨[⟨1, 5⟩, ⟨1, 4⟩, ⟨1, 0⟩], 3⟩]
      equations_known := by decide
      relus := [⟨0, 1⟩]
      relus_known := by decide
      inputs := [0]
      inputs_known := by decide
      outputs := [1]
      outputs_known := by decide }
    ∃ simplified map remaining, simplify chained effort = .ok (simplified, map) ∧
      map.Accounts chained remaining simplified ∧ map.target? 4 = some 3 ∧ map.target? 3 = some 2 ∧
      map.fixedValue? 2 = some 1 ∧ map.newIndex? 5 = some 2 := by
  intro effort chained
  have formed : chained.WellFormed := by decide +kernel
  have fates : (simplify chained effort).toOption.map (fun reduced =>
      (reduced.2.target? 4, reduced.2.target? 3, reduced.2.fixedValue? 2, reduced.2.newIndex? 5)) =
        some (some 3, some 2, some 1, some 2) := by decide +kernel
  obtain ⟨⟨simplified, map⟩, run, each⟩ := toOption_map_eq_some fates
  obtain ⟨s, d, -, -, -, accounts, -⟩ := simplify_accounts (distinct_of_wellFormed formed) run
  obtain ⟨first, second, value, index⟩ : _ ∧ _ ∧ _ ∧ _ := by simpa only [Prod.mk.injEq] using each
  exact ⟨simplified, map, d.equations, run, accounts, first, second, value, index⟩

end Presolve

end ReluSolver
