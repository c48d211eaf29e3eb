import ReluSolver.Proofs.BasisExchange
import ReluSolver.Search.ExchangeTables

/-! The tables that are kept for exchanges agree with each other and with the factorization,
after any number of exchanges, of columns that were solved for in vain and of exchanges
that were refused. -/

namespace ReluSolver

open Extended

namespace Searching

variable {β γ : Type} {s : Session Extended}

theorem ofFault_bind_run {result : Except Fault β} {value : β} (given : result = .ok value)
    (next : β → Searching Extended γ) : (ofFault result >>= next) s = next value s := by
  rw [given]
  rfl

theorem observe_bind_run {f : Store Extended → Except Fault β} {value : β}
    (read : f s.store = .ok value) (next : β → Searching Extended γ) :
    (observe f >>= next) s = next value s := by
  have observed : observe f s = .ok value s := by
    rw [observe, get_bind_run, read]
    rfl
  change EStateM.bind (observe f) next s = _
  rw [EStateM.bind, observed]

theorem set_bind_run (t : Session Extended) (next : PUnit → Searching Extended γ) :
    (set t >>= next) s = next ⟨⟩ t := rfl

end Searching

theorem replace_inside {β : Type} {values : Array β} {i : Nat} (inside : i < values.size) (value : β) :
    replace values i value = .ok (values.setIfInBounds i value) :=
  replace_eq_ok.mpr ⟨inside, rfl⟩

namespace Problem

open Searching

variable {p : Problem Extended} {f : Factorization Extended} {tables : ExchangeTables Extended}

/-- The marks are at the basic variables, and the buffer has an entry for each of them. -/
structure Agrees (p : Problem Extended) (tables : ExchangeTables Extended) : Prop where
  marks : ∀ x < p.query.size, tables.isBasic[x]? = some (decide (x ∈ tables.basic))
  buffer : tables.buffer.size = p.basis.dimension

theorem Agrees.marked (agrees : p.Agrees tables) {x : Variable} (known : x < p.query.size) :
    x < tables.isBasic.size :=
  (Array.getElem?_eq_some_iff.mp (agrees.marks x known)).1

theorem foldl_mark (basic : List Variable) (marks : Array Bool) (x : Variable) :
    (basic.foldl (·.setIfInBounds · true) marks)[x]? = marks[x]?.map (· || decide (x ∈ basic)) := by
  induction basic generalizing marks with
  | nil => simp
  | cons y rest ih =>
    rw [List.foldl_cons, ih, Array.getElem?_setIfInBounds]
    by_cases same : y = x
    · subst same
      by_cases inside : y < marks.size <;> simp [inside]
    · simp [same, Ne.symm same]

theorem freshTables_agrees : p.Agrees p.freshTables where
  marks := by
    intro x known
    rw [freshTables, foldl_mark]
    simp [known]
  buffer := Array.size_replicate

theorem mem_exchanged {basic : Array Variable} (distinct : basic.toList.Nodup) {k : Nat}
    (placed : k < basic.size) {x y : Variable} :
    y ∈ basic.setIfInBounds k x ↔ y = x ∨ y ∈ basic ∧ y ≠ basic[k] := by
  have left_iff (i : Nat) (inside : i < basic.size) : basic[i] = basic[k] ↔ i = k := by
    rw [← Array.getElem_toList, ← Array.getElem_toList]
    exact distinct.getElem_inj_iff
  simp only [Array.mem_iff_getElem, Array.size_setIfInBounds]
  constructor
  · rintro ⟨i, inside, rfl⟩
    rw [Array.getElem_setIfInBounds inside]
    split
    next => exact .inl rfl
    next other => exact .inr ⟨⟨i, inside, rfl⟩, fun same => other ((left_iff i inside).mp same).symm⟩
  · rintro (rfl | ⟨⟨i, inside, rfl⟩, other⟩)
    · exact ⟨k, placed, Array.getElem_setIfInBounds_self _⟩
    · refine ⟨i, inside, Array.getElem_setIfInBounds_ne inside fun same => other ?_⟩
      exact (left_iff i inside).mpr same.symm

theorem Agrees.exchange (agrees : p.Agrees tables) (distinct : tables.basic.toList.Nodup) {k : Nat}
    (placed : k < tables.basic.size) (leaving : tables.basic[k] < p.query.size) {x : Variable}
    (entering : x < p.query.size) :
    ∃ next, tables.exchange k x = .ok next ∧ next.basic = tables.basic.setIfInBounds k x ∧
      p.Agrees next := by
  let next : ExchangeTables Extended := { tables with
    basic := tables.basic.setIfInBounds k x
    isBasic := (tables.isBasic.setIfInBounds tables.basic[k] false).setIfInBounds x true }
  refine ⟨next, ?_, rfl, fun y known => ?_, agrees.buffer⟩
  · refine bind_eq_ok.mpr ⟨_, fetch_eq_ok.mpr (Array.getElem?_eq_getElem placed), ?_⟩
    refine bind_eq_ok.mpr ⟨_, replace_inside (agrees.marked leaving) false, ?_⟩
    refine bind_eq_ok.mpr ⟨_, replace_inside ?_ true, ?_⟩
    · rw [Array.size_setIfInBounds]
      exact agrees.marked entering
    · exact bind_eq_ok.mpr ⟨_, replace_inside placed x, rfl⟩
  · have inside := agrees.marked known
    simp only [next, Array.getElem?_setIfInBounds, Array.size_setIfInBounds, agrees.marks y known,
      mem_exchanged distinct placed]
    by_cases entered : x = y
    · subst entered
      simp [inside]
    · by_cases left : tables.basic[k] = y
      · subst left
        simp [entered, inside, Ne.symm entered]
      · simp [entered, left, Ne.symm entered, Ne.symm left]

theorem Agrees.fetch (agrees : p.Agrees tables) {x : Variable} (known : x < p.query.size) :
    fetch tables.isBasic x = .ok (tables.basic.contains x) := by
  rw [fetch_eq_ok, agrees.marks x known, Array.contains_eq_mem]

section Search

variable {x : Variable} {buffer : Array Extended} (sized : buffer.size = p.basis.dimension)
include sized

theorem solveInto_ok {column : Array Extended}
    (solved : f.forward (p.basis.column x).toArray p.basis.dimension = .ok column) :
    p.solveInto f x buffer = (true, column) := by
  simp only [solveInto, sized, solved]

theorem solveInto_error {cause : FactorError}
    (refused : f.forward (p.basis.column x).toArray p.basis.dimension = .error cause) :
    ∃ left, p.solveInto f x buffer = (false, left) ∧ left.size = p.basis.dimension := by
  simp only [solveInto, sized, refused]
  cases cause with
  | singular _ => exact ⟨_, rfl, by simp [CrashBasis.column]⟩
  | _ => exact ⟨_, rfl, sized⟩

end Search

/-- Searching with the marks finds what searching without them does, and leaves its column in the
buffer. -/
theorem searchEntering_eq (agrees : p.Agrees tables) (store : Store Extended) {k : Nat}
    {attempts left : Nat} {candidates : List Variable}
    (known : ∀ x ∈ candidates, x < p.query.size) {found : Option (Variable × Array Extended)}
    (run : p.findEntering f store tables.basic k attempts candidates = .ok (found, left)) :
    ∃ buffer, p.searchEntering f store k attempts candidates tables =
        .ok (found.map (·.1), left, { tables with buffer := buffer }) ∧
      buffer.size = p.basis.dimension ∧ ∀ x column, found = some (x, column) → buffer = column := by
  induction candidates generalizing attempts tables with
  | nil =>
    cases run
    exact ⟨tables.buffer, rfl, agrees.buffer, nofun⟩
  | cons x rest ih =>
    have others := fun y member => known y (List.mem_cons_of_mem x member)
    obtain ⟨fixed, read, run⟩ := bind_eq_ok.mp run
    unfold searchEntering
    rw [agrees.fetch (known x (by simp)), read]
    simp only [bind, Except.bind]
    split at run
    next skipped =>
      rw [if_pos skipped]
      exact ih agrees others run
    next free =>
      rw [if_neg free]
      cases attempts with
      | zero =>
        cases run
        exact ⟨tables.buffer, rfl, agrees.buffer, nofun⟩
      | succ attempts =>
        have later (buffer) (sized : buffer.size = p.basis.dimension) :=
          @ih { tables with buffer := buffer } ⟨agrees.marks, sized⟩ attempts others
        obtain ⟨chosen, searched, run⟩ := bind_eq_ok.mp run
        unfold exchangeColumn? at searched
        split at searched
        next refused =>
          obtain ⟨buffer, solved, sized⟩ := solveInto_error agrees.buffer refused
          cases searched
          simp only [solved]
          exact later buffer sized run
        next column solved =>
          have sized := Factorization.forward_size solved
          obtain ⟨a, entry, judged⟩ := bind_eq_ok.mp searched
          cases judged
          simp only [solveInto_ok agrees.buffer solved, entry]
          by_cases large : leastExchange ≤ Scalar.abs a
          · simp only [if_pos large] at run ⊢
            cases run
            exact ⟨column, rfl, sized, fun _ _ same => (Prod.mk.inj (Option.some.inj same)).2⟩
          · simp only [if_neg large] at run ⊢
            exact later column sized run

/-- The session is as it was, but for a factorization that fits the basic variables. -/
def Holding (p : Problem Extended) (start : Session Extended) (enabled : Bool) (basic : Array Variable)
    (s : Session Extended) : Prop :=
  ∃ f, s = { start with factorization := some f } ∧ f.enabled = enabled ∧ p.Fits f basic

theorem exchangeByTables_eq (within : p.basis.Within p.query) {start : Session Extended}
    (stored : start.store.size = p.query.size) {enabled : Bool} {attempts : Nat}
    {positions : List Nat} (inside : ∀ k ∈ positions, k < p.basis.dimension) (agrees : p.Agrees tables)
    {s : Session Extended} (held : p.Holding start enabled tables.basic s) :
    ∃ last t, p.exchangeByTables attempts positions tables s = .ok last t ∧
      p.exchangeAt tables.basic attempts positions s = .ok last.basic t ∧
      p.Agrees last ∧ p.Holding start enabled last.basic t := by
  induction positions generalizing tables attempts s with
  | nil =>
    unfold exchangeByTables exchangeAt
    exact ⟨tables, s, rfl, rfl, agrees, held⟩
  | cons k rest ih =>
    have here := inside k (by simp)
    have later {tables : ExchangeTables Extended} (attempts : Nat) (agrees : p.Agrees tables)
        {s : Session Extended} (held : p.Holding start enabled tables.basic s) :=
      @ih tables attempts (fun k member => inside k (List.mem_cons_of_mem _ member)) agrees s held
    cases attempts with
    | zero => exact ⟨tables, s, rfl, rfl, agrees, held⟩
    | succ attempts =>
      obtain ⟨f, rfl, kept, fits⟩ := id held
      have placed : k < tables.basic.size := Nat.lt_of_lt_of_eq here fits.size.symm
      have slot := fetch_eq_ok.mpr (Array.getElem?_eq_getElem placed)
      have leaving := fits.known _ (Array.getElem_mem placed)
      obtain ⟨fixed, read⟩ := start.store.isFixed_total stored leaving
      unfold exchangeByTables exchangeAt
      rw [get_bind_run, get_bind_run, ofFault_bind_run slot, ofFault_bind_run slot]
      dsimp only
      rw [observe_bind_run read, observe_bind_run read]
      cases fixed with
      | false => exact later _ agrees held
      | true =>
        rw [if_pos rfl, if_pos rfl]
        have others : ∀ x ∈ p.basis.nonBasic, x < p.query.size := by
          rw [within.nonBasic]
          exact fun x member => List.mem_range.mp (List.mem_filter.mp member).1
        obtain ⟨⟨found, left⟩, searched, -⟩ :=
          p.findEntering_total f stored tables.basic here (attempts + 1) others
        obtain ⟨buffer, looked, filled, holds⟩ := searchEntering_eq agrees start.store others searched
        have refilled : p.Agrees { tables with buffer := buffer } := ⟨agrees.marks, filled⟩
        rw [ofFault_bind_run searched, ofFault_bind_run looked]
        cases found with
        | none => exact later _ refilled held
        | some found =>
          obtain ⟨entering, column⟩ := found
          obtain rfl := holds _ _ rfl
          obtain ⟨member, -, solved⟩ := p.findEntering_found searched
          dsimp only [Option.map]
          cases pushed : f.push k buffer with
          | ok exchanged =>
            obtain ⟨next, entered, same, agrees⟩ :=
              refilled.exchange fits.distinct placed leaving (others _ member)
            have exchange := fits.push within here (others _ member) solved pushed
            dsimp only
            rw [set_bind_run, set_bind_run, ofFault_bind_run entered,
              ofFault_bind_run (replace_inside placed entering), ← same]
            refine later _ agrees ⟨exchanged, rfl, (Factorization.push_enabled pushed).trans kept, ?_⟩
            exact same ▸ exchange
          | error cause =>
            obtain ⟨_, rfl⟩ :=
              Factorization.push_error (filled.trans fits.dimension.symm) (fits.dimension ▸ here) pushed
            exact later _ refilled held

theorem unmarkedRemainder_eq (agrees : p.Agrees tables) (values : Assignment Extended)
    {e : Equation Extended} (known : ∀ a ∈ e.addends, a.var < p.query.size) :
    unmarkedRemainder tables.isBasic values e = remainder tables.basic values e := by
  have others : e.addends.filterM (fun a => return !(← fetch tables.isBasic a.var)) =
      (pure (e.addends.filter fun a => !tables.basic.contains a.var) : Except Fault _) := by
    apply filterM_pure
    intro a member
    rw [agrees.fetch (known a member)]
    rfl
  rw [unmarkedRemainder, others, pure_bind]
  rfl

theorem solveByTables_eq (within : p.basis.Within p.query) (agrees : p.Agrees tables)
    (values : Assignment Extended) : p.solveByTables tables values = p.solveBasics tables.basic values := by
  have rests : p.basis.rows.mapM (fun row => unmarkedRemainder tables.isBasic values row.equation) =
      p.basis.rows.mapM fun row => remainder tables.basic values row.equation :=
    mapM_congr fun row member => unmarkedRemainder_eq agrees values (within.known row member)
  unfold solveByTables
  rw [rests]
  rfl

end Problem

end ReluSolver
