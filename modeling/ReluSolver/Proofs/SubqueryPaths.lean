import ReluSolver.Proofs.DivisionParts
import ReluSolver.Run.Worker

/-! The id of a subquery is the way to its region in the tree of divisions. What a division makes is
numbered in order, one level deeper than the region, and within it. -/

namespace ReluSolver

variable {α : Type}

namespace Subquery

/-- The numbers between the hyphens of an id; the whole region of a run has the empty one. -/
def pathOf (id : String) : List (List Char) := if id = "" then [] else id.toList.splitOn '-'

theorem pathOf_of_ne {id : String} (inner : id ≠ "") : pathOf id = id.toList.splitOn '-' :=
  if_neg inner

theorem hyphen_not_mem_repr (n : Nat) : '-' ∉ (Nat.repr n).toList := by
  rw [Nat.toList_repr]
  intro member
  exact absurd (Nat.isDigit_of_mem_toDigits (by decide) (by decide) member) (by decide)

theorem eq_of_repr {m n : Nat} (same : (Nat.repr m).toList = (Nat.repr n).toList) : m = n := by
  rw [Nat.toList_repr, Nat.toList_repr] at same
  simpa using congrArg (Nat.ofDigitChars 10 · 0) same

theorem pathOf_childId (parent : String) (index : Nat) :
    pathOf (childId parent index) = pathOf parent ++ [(Nat.repr index).toList] := by
  have number := List.splitOn_eq_singleton (hyphen_not_mem_repr index)
  by_cases root : parent = ""
  · subst root
    have single : childId "" index = Nat.repr index := rfl
    rw [single, pathOf_of_ne Nat.repr_ne_empty, number]
    rfl
  · have inner : childId parent index = parent ++ "-" ++ Nat.repr index :=
      if_neg (by simpa using root)
    have numbered : (parent ++ "-" ++ Nat.repr index).toList =
        parent.toList ++ '-' :: (Nat.repr index).toList := by simp
    rw [inner, pathOf_of_ne (by simp), pathOf_of_ne root, numbered, List.splitOn_append_cons_self,
      number]

theorem pathOf_injective {id other : String} (same : pathOf id = pathOf other) : id = other := by
  unfold pathOf at same
  split at same
  next root =>
    split at same
    next root' => rw [root, root']
    next => exact absurd same.symm (List.splitOn_ne_nil _ _)
  next =>
    split at same
    next => exact absurd same (List.splitOn_ne_nil _ _)
    next =>
      have joined := congrArg (['-'].intercalate ·) same
      simp only [List.intercalate_splitOn] at joined
      exact String.toList_inj.mp joined

/-- An id tells the parent and the number of a child. -/
theorem childId_injective {parent other : String} {index number : Nat}
    (same : childId parent index = childId other number) : parent = other ∧ index = number := by
  have paths := congrArg pathOf same
  rw [pathOf_childId, pathOf_childId] at paths
  obtain ⟨before, last⟩ := List.append_inj' paths rfl
  exact ⟨pathOf_injective before, eq_of_repr (List.singleton_inj.mp last)⟩

/-- Subqueries that are made together from a region. -/
structure Siblings (parent : String) (depth : Nat) (region : CaseSplit α)
    (children : List (Subquery α)) : Prop where
  ids : children.map (·.id) = (List.range children.length).map fun i => childId parent (i + 1)
  deeper : ∀ child ∈ children, child.depth = depth + 1
  within : ∀ child ∈ children, child.split.Extends region

namespace Siblings

variable {parent : String} {depth : Nat} {region : CaseSplit α} {children : List (Subquery α)}

theorem childId_of_mem (siblings : Siblings parent depth region children) {child : Subquery α}
    (member : child ∈ children) : ∃ index, child.id = childId parent index := by
  have listed := List.mem_map_of_mem (f := fun s : Subquery α => s.id) member
  rw [siblings.ids] at listed
  obtain ⟨i, -, same⟩ := List.mem_map.mp listed
  exact ⟨i + 1, same.symm⟩

theorem nodup (siblings : Siblings parent depth region children) :
    (children.map (·.id)).Nodup := by
  rw [siblings.ids]
  refine List.Nodup.map (fun i j same => ?_) List.nodup_range
  exact Nat.succ_injective (childId_injective same).2

theorem withState (siblings : Siblings parent depth region children) (state : Option (TreeState α)) :
    Siblings parent depth region (children.map (·.withState state)) where
  ids := by
    rw [List.map_map, List.length_map]
    exact siblings.ids
  deeper := List.forall_mem_map.mpr siblings.deeper
  within := List.forall_mem_map.mpr siblings.within

end Siblings

/-- A subquery is as deep as its id is long, and not deeper than divisions go. -/
structure Placed (limit : Nat) (s : Subquery α) : Prop where
  depth : s.depth = (pathOf s.id).length
  positive : 1 ≤ s.depth
  bounded : s.depth ≤ max 1 limit

theorem Placed.inner {limit : Nat} {s : Subquery α} (placed : s.Placed limit) : s.id ≠ "" := by
  intro root
  have depth := placed.depth
  rw [root] at depth
  exact absurd depth (Nat.ne_of_gt placed.positive)

theorem Siblings.placed {parent : String} {depth limit : Nat} {region : CaseSplit α}
    {children : List (Subquery α)} (siblings : Siblings parent depth region children)
    (above : depth = (pathOf parent).length) (shallow : depth < max 1 limit) :
    ∀ child ∈ children, child.Placed limit := by
  intro child member
  obtain ⟨index, same⟩ := siblings.childId_of_mem member
  have deeper := siblings.deeper child member
  refine ⟨?_, ?_, ?_⟩
  · rw [deeper, same, pathOf_childId, List.length_append, List.length_singleton, above]
  · omega
  · omega

end Subquery

theorem Division.subqueries_siblings [Scalar α] {d : Division α} {count depth : Nat} {parent : String}
    {region : CaseSplit α} {timeout : Duration} {children : List (Subquery α)}
    (run : d.subqueries count parent depth region timeout = .ok children) :
    Subquery.Siblings parent depth region children := by
  obtain ⟨times, parts, -, refined, rfl⟩ := subqueries_eq_ok run
  refine ⟨?_, ?_, ?_⟩
  · rw [Subquery.ofParts, List.length_mapIdx]
    refine List.ext_getElem (by simp) fun i listed _ => ?_
    simp
  · intro child member
    obtain ⟨i, listed, rfl⟩ := List.mem_mapIdx.mp member
    rfl
  · intro child member
    obtain ⟨i, listed, rfl⟩ := List.mem_mapIdx.mp member
    obtain ⟨whole, among, narrower⟩ := refine_extends refined (List.getElem_mem listed)
    obtain rfl := List.mem_singleton.mp among
    exact narrower

namespace WorkPlan

/-- The answers that a worker can hear about a subquery, and what they bring into the run. -/
inductive Follows (plan : WorkPlan α) (s : Subquery α) : Reaction α → Prop
  | resolved : Follows plan s .resolved
  | found : Follows plan s .found
  | divided {children : List (Subquery α)} (shallow : s.depth < plan.divideDepth)
      (count : children.length = plan.children)
      (siblings : Subquery.Siblings s.id s.depth s.split children) :
      Follows plan s (.divided children)
  | requeued (deep : plan.divideDepth ≤ s.depth) (timeout : Duration) :
      Follows plan s (.requeued (s.withTimeout timeout))
  | dropped : Follows plan s .dropped
  | failed : Follows plan s .failed
  | crashed : Follows plan s .crashed

variable [Scalar α] (plan : WorkPlan α) (s : Subquery α)

theorem react_follows (code : ExitCode) (state : Option (TreeState α)) :
    plan.Follows s (plan.react s code state) := by
  cases code with
  | unsat => exact .resolved
  | sat => exact .found
  | quitRequested => exact .dropped
  | error | notDone => exact .failed
  | timeout =>
    unfold react prolong
    dsimp only
    split
    next shallow =>
      split
      next => exact .crashed
      next children made =>
        have count := Division.subqueries_length made
        have siblings := Division.subqueries_siblings made
        split
        · exact .divided shallow (by rw [List.length_map, count]) (siblings.withState state)
        · exact .divided shallow count siblings
    next deep => exact .requeued (not_lt.mp deep) _

end WorkPlan

end ReluSolver
