import ReluSolver.Proofs.RunBalance

/-! The subqueries of a run are a tree of regions. Their ids tell them apart on every schedule, and
since a region is divided only so often, the number of divisions is bounded by the settings. -/

namespace ReluSolver

variable {α : Type}

/-- The subqueries that an answer makes. -/
def Reaction.parts : Reaction α → List (Subquery α)
  | divided children => children
  | _ => []

theorem WorkPlan.Follows.part {plan : WorkPlan α} {s : Subquery α} {reaction : Reaction α}
    (follows : plan.Follows s reaction) {child : Subquery α} (member : child ∈ reaction.parts) :
    reaction.isRequeue = false ∧ ∃ index, child.id = Subquery.childId s.id index := by
  cases follows with
  | divided _ _ siblings => exact ⟨rfl, siblings.childId_of_mem member⟩
  | resolved | found | requeued | dropped | failed | crashed => cases member

theorem WorkPlan.Follows.placed {plan : WorkPlan α} {s : Subquery α} {reaction : Reaction α}
    (follows : plan.Follows s reaction) (placed : s.Placed plan.divideDepth) :
    ∀ child ∈ reaction.offspring, child.Placed plan.divideDepth := by
  cases follows with
  | divided shallow _ siblings => exact siblings.placed placed.depth (by omega)
  | requeued _ timeout =>
    exact List.forall_mem_singleton.mpr ⟨placed.depth, placed.positive, placed.bounded⟩
  | resolved | found | dropped | failed | crashed => exact List.forall_mem_nil _

namespace Crew

/-- The subqueries that a run began with, and those that divisions made. -/
def made (first : List (Subquery α)) (heard : List (Answer α)) : List (Subquery α) :=
  first ++ heard.flatMap (·.reaction.parts)

/-- The subqueries that were answered and not put back. -/
def finished (heard : List (Answer α)) : List (Subquery α) :=
  (heard.filter (!·.reaction.isRequeue)).map (·.subquery)

theorem finished_cons (a : Answer α) (rest : List (Answer α)) :
    finished (a :: rest) = finished [a] ++ finished rest := by
  rw [finished, ← List.singleton_append, List.filter_append, List.map_append]
  rfl

variable {plan : WorkPlan α} {first : List (Subquery α)} {heard : List (Answer α)} {c : Crew α}

section Homes

variable {β : Type} (f : Subquery α → β) (keeps : ∀ s timeout, f (s.withTimeout timeout) = f s)
  (follows : ∀ a ∈ heard, plan.Follows a.subquery a.reaction)
include keeps follows

/-- What is put back is, except for its time limit, what it was before. -/
theorem turnover_perm :
    ((heard.map (·.subquery) ++ heard.flatMap (·.reaction.parts)).map f).Perm
      ((finished heard ++ heard.flatMap (·.reaction.offspring)).map f) := by
  classical
  rw [List.perm_iff_count]
  intro item
  induction heard with
  | nil => rfl
  | cons a rest ih =>
    have later := ih fun other member => follows other (by simp [member])
    have here : ([a.subquery].map f).count item + (a.reaction.parts.map f).count item =
        ((finished [a]).map f).count item + (a.reaction.offspring.map f).count item := by
      obtain ⟨worker, subquery, reaction⟩ := a
      have answered : plan.Follows subquery reaction := follows _ (List.mem_cons_self ..)
      cases answered with
      | requeued _ timeout =>
        simp [finished, Reaction.isRequeue, Reaction.parts, Reaction.offspring, keeps]
      | resolved | found | divided | dropped | failed | crashed =>
        simp [finished, Reaction.isRequeue, Reaction.parts, Reaction.offspring]
    rw [finished_cons]
    simp only [List.map_append, List.count_append, List.flatMap_cons, List.map_cons,
      List.map_nil, List.count_cons, List.count_nil] at *
    omega

/-- Every subquery that was made waits, is held, or was answered for good, and is so once. -/
theorem homes_perm (ledger : c.Ledger first heard) :
    ((c.shared.queue.waiting ++ c.held ++ finished heard).map f).Perm ((made first heard).map f) := by
  classical
  have complete := ledger.complete.map f
  have turnover := turnover_perm f keeps follows
  rw [List.perm_iff_count] at complete turnover ⊢
  intro item
  have complete := complete item
  have turnover := turnover item
  simp only [made, List.map_append, List.count_append] at *
  omega

end Homes

/-- A tree of subqueries that has grown from the first ones by some answers. -/
structure Grown (plan : WorkPlan α) (first : List (Subquery α)) (heard : List (Answer α)) : Prop where
  follows : ∀ a ∈ heard, plan.Follows a.subquery a.reaction
  placed : ∀ s ∈ first ++ heard.flatMap (·.reaction.offspring), s.Placed plan.divideDepth
  distinct : ((made first heard).map (·.id)).Nodup

namespace Grown

variable {region : CaseSplit α} (roots : Subquery.Siblings "" 0 region first)
include roots

theorem initial (plan : WorkPlan α) : Grown plan first [] where
  follows := List.forall_mem_nil _
  placed := by simpa using roots.placed rfl (by omega)
  distinct := by simpa [made] using roots.nodup

variable (grown : Grown plan first heard) {subquery : Subquery α}
include grown

theorem apart (ledger : c.Ledger first heard) (holds : subquery ∈ c.held)
    (inner : subquery.id ≠ "") {s : Subquery α} (before : s ∈ made first heard) (index : Nat) :
    s.id ≠ Subquery.childId subquery.id index := by
  intro same
  rcases List.mem_append.mp before with root | later
  · obtain ⟨number, numbered⟩ := roots.childId_of_mem root
    exact inner (Subquery.childId_injective (numbered.symm.trans same)).1.symm
  · obtain ⟨a, member, part⟩ := List.mem_flatMap.mp later
    obtain ⟨kept, number, numbered⟩ := (grown.follows a member).part part
    have twice := (Subquery.childId_injective (numbered.symm.trans same)).1
    -- The parent would be held, and finished as well.
    have ended : a.subquery ∈ finished heard :=
      List.mem_map_of_mem (List.mem_filter.mpr ⟨member, by rw [kept]; rfl⟩)
    have homes := (homes_perm (fun s => s.id) (fun _ _ => rfl) grown.follows ledger).symm.nodup
      grown.distinct
    rw [List.map_append, List.nodup_append] at homes
    exact homes.2.2 _ (List.mem_map_of_mem (List.mem_append_right _ holds)) _
      (List.mem_map_of_mem ended) twice.symm

theorem hear (ledger : c.Ledger first heard) (holds : subquery ∈ c.held) {reaction : Reaction α}
    (follows : plan.Follows subquery reaction) (worker : Nat) :
    Grown plan first (heard ++ [⟨worker, subquery, reaction⟩]) := by
  have listed : subquery ∈ first ++ heard.flatMap (·.reaction.offspring) :=
    ledger.complete.subset (by simp [holds])
  have placed := grown.placed subquery listed
  refine ⟨?_, ?_, ?_⟩
  · intro a member
    rcases List.mem_append.mp member with earlier | last
    · exact grown.follows a earlier
    · obtain rfl := List.mem_singleton.mp last
      exact follows
  · intro s member
    rw [List.flatMap_append, ← List.append_assoc, List.mem_append] at member
    rcases member with earlier | last
    · exact grown.placed s earlier
    · exact follows.placed placed s (by simpa using last)
  · have parts : made first (heard ++ [⟨worker, subquery, reaction⟩]) =
        made first heard ++ reaction.parts := by simp [made]
    rw [parts, List.map_append, List.nodup_append]
    cases follows with
    | divided _ _ siblings =>
      refine ⟨grown.distinct, siblings.nodup, ?_⟩
      intro id before other later same
      obtain ⟨s, old, rfl⟩ := List.mem_map.mp before
      obtain ⟨child, new, rfl⟩ := List.mem_map.mp later
      obtain ⟨index, numbered⟩ := siblings.childId_of_mem new
      exact grown.apart roots ledger holds placed.inner old index (same.trans numbered)
    | resolved | found | requeued | dropped | failed | crashed =>
      exact ⟨grown.distinct, List.nodup_nil, by simp [Reaction.parts]⟩

end Grown

section Budget

/-- How often a region at a depth, and what is made from it, can be divided in all. -/
def budget (plan : WorkPlan α) (depth : Nat) : Nat :=
  ((List.range (plan.divideDepth - depth)).map (plan.children ^ ·)).sum

theorem budget_succ {depth : Nat} (shallow : depth < plan.divideDepth) :
    budget plan depth = 1 + plan.children * budget plan (depth + 1) := by
  have levels : plan.divideDepth - depth = plan.divideDepth - (depth + 1) + 1 := by omega
  rw [budget, levels, List.range_succ_eq_map, List.map_cons, List.sum_cons, pow_zero, List.map_map,
    budget, ← List.sum_map_mul_left]
  simp only [Function.comp_def, pow_succ']

theorem budget_of_depth {items : List (Subquery α)} {depth : Nat}
    (level : ∀ s ∈ items, s.depth = depth) :
    (items.map (budget plan ·.depth)).sum = items.length * budget plan depth := by
  rw [List.map_congr_left fun s member => congrArg (budget plan) (level s member), List.map_const',
    List.sum_replicate, smul_eq_mul]

/-- A division is paid for by the subquery that is divided. -/
theorem spent_le {s : Subquery α} {reaction : Reaction α} (follows : plan.Follows s reaction) :
    reaction.isDivision.toNat + (reaction.offspring.map (budget plan ·.depth)).sum ≤
      budget plan s.depth := by
  cases follows with
  | divided shallow count siblings =>
    rw [Reaction.offspring, budget_of_depth siblings.deeper, count, budget_succ shallow]
    rfl
  | requeued _ timeout => simp [Reaction.isDivision, Reaction.offspring, Subquery.withTimeout]
  | resolved | found | dropped | failed | crashed => exact Nat.zero_le _

theorem allSpent_le (follows : ∀ a ∈ heard, plan.Follows a.subquery a.reaction) :
    heard.countP (·.reaction.isDivision) +
        ((heard.flatMap (·.reaction.offspring)).map (budget plan ·.depth)).sum ≤
      ((heard.map (·.subquery)).map (budget plan ·.depth)).sum := by
  induction heard with
  | nil => exact Nat.le_refl 0
  | cons a rest ih =>
    have later := ih fun other member => follows other (by simp [member])
    have here := spent_le (follows a (by simp))
    simp only [countP_cons_toNat, List.flatMap_cons, List.map_append, List.sum_append, List.map_cons,
      List.sum_cons]
    omega

/-- There are no more divisions than the first subqueries can pay for. -/
theorem divisions_le (ledger : c.Ledger first heard)
    (follows : ∀ a ∈ heard, plan.Follows a.subquery a.reaction) :
    heard.countP (·.reaction.isDivision) ≤ (first.map (budget plan ·.depth)).sum := by
  have spent := allSpent_le follows
  have complete := (ledger.complete.map (budget plan ·.depth)).sum_eq
  simp only [List.map_append, List.sum_append] at complete
  omega

end Budget

end Crew

namespace Run

variable {ε : Type} [SearchEngine ε α] [Scalar α] {r : Run ε α} {first : List (Subquery α)}
  {codes : List ExitCode} {heard : List (Answer α)}

omit [SearchEngine ε α] in
theorem Brings.grown {region : CaseSplit α} (roots : Subquery.Siblings "" 0 region first)
    (grown : Crew.Grown r.plan first heard) (ledger : r.crew.Ledger first heard)
    {code : Option ExitCode} {answer : Option (Answer α)} {c : Crew α}
    (brings : r.Brings code answer c) : Crew.Grown r.plan first (heard ++ answer.toList) := by
  have holds : ∀ {i : Nat} {w : Worker α} {subquery : Subquery α}, r.crew.workers[i]? = some w →
      w.duty = .decide subquery → subquery ∈ r.crew.held := by
    intro i w subquery found waits
    exact List.mem_flatMap.mpr ⟨w, Array.mem_toList_iff.mpr (Array.mem_of_getElem? found), by
      simp [waits, Duty.held]⟩
  cases brings with
  | idle | cancel | act => simpa using grown
  | answer found waits code state =>
    exact grown.hear roots ledger (holds found waits) (r.plan.react_follows _ code state) _
  | crash found waits => exact grown.hear roots ledger (holds found waits) .crashed _

theorem after_grown {region : CaseSplit α} (roots : Subquery.Siblings "" 0 region first)
    (grown : Crew.Grown r.plan first heard)
    (books : r.crew.Books first r.plan.children codes heard) (steps : List Step) :
    Crew.Grown r.plan first (heard ++ r.answers steps) := by
  induction steps generalizing r codes heard with
  | nil => simpa [answers] using grown
  | cons step rest ih =>
    cases step with
    | move m =>
      obtain ⟨plan, -⟩ := (r.move_moves m).plan
      have brings := r.move_brings m
      have later := ih (plan.symm ▸ brings.grown roots grown books.ledger)
        (plan.symm ▸ brings.books books)
      rwa [plan, List.append_assoc] at later
    | askQuit => exact ih (r := r.step .askQuit) grown books

omit [SearchEngine ε α] in
theorem begin_siblings {config : RunConfig α} {q p : Query α} {map : Option (VariableMap α)}
    {engines : List ε} {quitRequested : Bool}
    (run : begin config q p map engines quitRequested = .ok r) :
    r.plan.divideDepth = config.onlineDivideDepth ∧
      ∃ region, Subquery.Siblings "" 0 region r.crew.shared.queue.waiting := by
  obtain ⟨effort, -, run⟩ := bind_eq_ok.mp run
  obtain ⟨region, -, run⟩ := bind_eq_ok.mp run
  obtain ⟨start, divided, run⟩ := bind_eq_ok.mp run
  obtain rfl := Except.ok.inj run
  exact ⟨rfl, region, Division.subqueries_siblings divided⟩

end Run

/-- What the ids and depths in a run say, where `first` are the subqueries that it began with, a
subquery is divided into `parts` at depths below `limit`, and `heard` is all that workers heard. -/
structure Crew.SplitTree (limit parts : Nat) (first : List (Subquery α)) (heard : List (Answer α))
    (c : Crew α) : Prop where
  /-- No two subqueries that were ever made have the same id. -/
  distinct : ((made first heard).map (·.id)).Nodup
  /-- Except for its time limit each of them is kept as it was made, and it is in one place. -/
  homes : ((c.shared.queue.waiting ++ c.held ++ finished heard).map (·.withTimeout .zero)).Perm
    ((made first heard).map (·.withTimeout .zero))
  depths : ∀ s ∈ first ++ heard.flatMap (·.reaction.offspring),
    s.depth = (s.id.toList.splitOn '-').length ∧ 1 ≤ s.depth ∧ s.depth ≤ max 1 limit
  divided : ∀ a ∈ heard, ∀ children, a.reaction = .divided children →
    a.subquery.depth < limit ∧ children.length = parts ∧
      ∀ child ∈ children, child.split.Extends a.subquery.split ∧
        child.depth = a.subquery.depth + 1 ∧ ∃ index, child.id = Subquery.childId a.subquery.id index
  requeued : ∀ a ∈ heard, ∀ again, a.reaction = .requeued again →
    again = a.subquery.withTimeout again.timeout
  counted : c.total (·.splits) = heard.countP (·.reaction.isDivision)
  /-- There are no more divisions than regions above the last level of a full tree. -/
  divisions : c.total (·.splits) ≤ first.length * ((List.range (limit - 1)).map (parts ^ ·)).sum

namespace Run

variable {ε : Type} [SearchEngine ε α] [Scalar α]

/-- Whatever steps a run takes, with any engines: ids tell all subqueries apart, depths are the
lengths of the ids, and the settings bound the number of divisions. -/
theorem after_splitTree {config : RunConfig α} {q p : Query α} {map : Option (VariableMap α)}
    {engines : List ε} {quitRequested : Bool} {start : Run ε α}
    (begun : begin config q p map engines quitRequested = .ok start) (steps : List Step) :
    start.initialSubqueries = start.crew.shared.queue.waiting.length ∧
      (start.after steps).crew.SplitTree config.onlineDivideDepth (2 ^ config.onlineDivides)
        start.crew.shared.queue.waiting (start.answers steps) := by
  obtain ⟨parts, initial, books⟩ := begin_books begun
  obtain ⟨limit, region, roots⟩ := begin_siblings begun
  have grown := after_grown roots (.initial roots start.plan) books steps
  obtain ⟨books, -⟩ := after_books books steps
  rw [List.nil_append] at grown books
  have counted := books.tallied _ _ Crew.tracks_splits
  refine ⟨initial, grown.distinct, ?_, ?_, ?_, ?_, counted, ?_⟩
  · exact Crew.homes_perm _ (fun _ _ => rfl) grown.follows books.ledger
  · intro s member
    have placed := grown.placed s member
    exact ⟨Subquery.pathOf_of_ne placed.inner ▸ placed.depth, placed.positive, limit ▸ placed.bounded⟩
  · intro a member children shape
    cases shape ▸ grown.follows a member with
    | divided shallow count siblings =>
      exact ⟨limit ▸ shallow, count.trans parts, fun child among =>
        ⟨siblings.within child among, siblings.deeper child among, siblings.childId_of_mem among⟩⟩
  · intro a member again shape
    cases shape ▸ grown.follows a member with
    | requeued _ timeout => rfl
  · have bound := Crew.divisions_le books.ledger grown.follows
    rw [Crew.budget_of_depth roots.deeper, Crew.budget, parts, limit] at bound
    exact counted.trans_le bound

/-- Every answer is late: both halves of an interval are divided, and their parts are put back. -/
theorem after_splitTree_late :
    let settings : SearchConfig Extended := ⟨0, .denseLu, ⟨1, 1⟩, 1, 0, 0, 0, 0⟩
    let config : RunConfig Extended :=
      { (RunConfig.default : RunConfig Extended) with
        workers := 2, initialDivides := 1, initialTimeout := .zero, onlineDivides := 1
        onlineDivideDepth := 2, engine := settings }
    let query : Query Extended := { Query.unconstrained 1 with
      bounds := #v[⟨0, 1⟩]
      inputs := [0]
      inputs_known := by decide }
    let engine : Scripted Extended := .new ⟨.accepted, [.code .timeout], false, none⟩
    let round : List Step :=
      [.move (.manager .zero), .move (.worker 0 .zero), .move (.worker 1 .zero)]
    let steps := (List.replicate 9 round).flatten
    ∃ start, begin config query query none [engine, engine] false = .ok start ∧
      (Crew.made start.crew.shared.queue.waiting (start.answers steps)).map (·.id) =
        ["1", "2", "1-1", "1-2", "2-1", "2-2"] ∧
      (start.answers steps).map (·.reaction.isRequeue) = [false, false, true, true] ∧
      (start.after steps).crew.total (·.splits) = 2 ∧
      (start.after steps).crew.SplitTree 2 2 start.crew.shared.queue.waiting
        (start.answers steps) := by
  intro settings config query engine round steps
  have evaluated : (begin config query query none [engine, engine] false).toOption.map (fun start =>
      ((Crew.made start.crew.shared.queue.waiting (start.answers steps)).map (·.id),
        (start.answers steps).map (·.reaction.isRequeue),
        (start.after steps).crew.total (·.splits))) =
      some (["1", "2", "1-1", "1-2", "2-1", "2-2"], [false, false, true, true], 2) := by
    decide +kernel
  obtain ⟨start, begun, told⟩ := toOption_map_eq_some evaluated
  obtain ⟨ids, told⟩ := Prod.mk.inj told
  obtain ⟨requeues, splits⟩ := Prod.mk.inj told
  exact ⟨start, begun, ids, requeues, splits, (after_splitTree begun steps).2⟩

end Run

end ReluSolver
