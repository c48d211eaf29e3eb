import ReluSolver.Proofs.BlankColumns
import ReluSolver.Proofs.CandidateSearch
import ReluSolver.Proofs.EquationTest

/-! A variable that no equation and no ReLU is about. It is never basic and never
repaired, so every candidate has the rational for it that was picked from its interval. -/

namespace ReluSolver

open Extended

theorem replace_eq_ok {β : Type} {values changed : Array β} {i : Nat} {value : β} :
    replace values i value = .ok changed ↔
      i < values.size ∧ values.setIfInBounds i value = changed := by
  unfold replace
  split
  next inside => exact ⟨fun same => ⟨inside, Except.ok.inj same⟩, fun same => congrArg _ same.2⟩
  next outside => exact ⟨nofun, fun same => absurd same.1 outside⟩

def RationalAt (v : Variable) (values : Assignment Extended) : Prop :=
  ∀ a, values[v]? = some a → Scalar.isFinite a = true

namespace RationalAt

variable {v w : Variable} {values : Assignment Extended}

variable {changed : Assignment Extended} {a : Extended}

theorem replace_other (rational : RationalAt v values) (other : w ≠ v)
    (run : replace values w a = .ok changed) : RationalAt v changed := by
  intro b found
  rw [← (replace_eq_ok.mp run).2, Array.getElem?_setIfInBounds_ne other] at found
  exact rational b found

theorem replace (rational : RationalAt v values) (given : Scalar.isFinite a = true)
    (run : replace values w a = .ok changed) : RationalAt v changed := by
  by_cases other : w = v
  · intro b found
    rw [← (replace_eq_ok.mp run).2, Array.getElem?_setIfInBounds, if_pos other] at found
    split at found
    · exact Option.some.inj found ▸ given
    · cases found
  · exact rational.replace_other other run

end RationalAt

namespace RandomStream

variable {s next : RandomStream} {i : Interval Extended} {a : Extended}

theorem unit_finite (drawn : (s.unit : Extended × RandomStream) = (a, next)) : ∃ r, a = finite r := by
  have whole : (resolution : Extended) = finite 4503599627370496 := by
    simpa [resolution] using ofNat_eq 4503599627370496
  cases pair : s.nextPair with
  | mk bits rest =>
    rw [unit, pair] at drawn
    dsimp only at drawn
    rw [whole] at drawn
    rw [← (Prod.mk.inj drawn).1]
    exact ⟨_, div_finite _ (by norm_num)⟩

theorem below_finite (bounded : Scalar.isFinite i.lower = true ∧ Scalar.isFinite i.upper = true)
    (drawn : s.below i = (a, next)) : ∃ r, a = finite r := by
  obtain ⟨l, lower⟩ := isFinite_iff.mp bounded.1
  obtain ⟨u, upper⟩ := isFinite_iff.mp bounded.2
  cases pair : (s.unit : Extended × RandomStream) with
  | mk u rest =>
    obtain ⟨r, rfl⟩ := unit_finite pair
    rw [below, pair] at drawn
    dsimp only at drawn
    rw [← (Prod.mk.inj drawn).1, lower, upper, sub_finite, mul_finite, add_finite]
    exact ⟨_, rfl⟩

theorem fitScale_eq {greatest scale fitted : Extended} {fuel : Nat}
    (run : fitScale i greatest fuel scale = .ok fitted) : fitted = scale := by
  induction fuel with
  | zero => cases run
  | succ fuel ih =>
    unfold fitScale at run
    split at run
    · exact ih run
    · exact (Except.ok.inj run).symm

theorem within_finite (bounded : Scalar.isFinite i.lower = true)
    (run : s.within i = .ok (a, next)) : ∃ r, a = finite r := by
  obtain ⟨l, lower⟩ := isFinite_iff.mp bounded
  unfold within at run
  dsimp only at run
  split at run
  · cases run
  split at run
  · cases run
  next finiteScale =>
    obtain ⟨scale, fitted, run⟩ := bind_eq_ok.mp run
    obtain ⟨c, shape⟩ := isFinite_iff.mp
      (by simpa only [Bool.not_eq_true, Bool.not_eq_false'] using finiteScale)
    cases pair : (s.unit : Extended × RandomStream) with
    | mk u rest =>
      obtain ⟨r, rfl⟩ := unit_finite pair
      rw [pair] at run
      obtain ⟨rfl, -⟩ := Prod.mk.inj (Except.ok.inj run)
      rw [fitScale_eq fitted, shape, lower, mul_finite, add_finite]
      exact ⟨_, rfl⟩

theorem sample_finite (run : s.sample i = .ok (a, next)) : Scalar.isFinite a = true := by
  have small : Scalar.isFinite (0 : Extended) = true ∧ Scalar.isFinite (1 : Extended) = true := by simp
  have wide : Scalar.isFinite (-1 : Extended) = true ∧ Scalar.isFinite (1 : Extended) = true := by simp
  unfold sample at run
  split at run
  next lower upper =>
    obtain ⟨l, shape⟩ := isFinite_iff.mp lower
    obtain ⟨u, shape'⟩ := isFinite_iff.mp upper
    split at run
    · rw [shape, shape', sub_finite, isFinite_finite, if_pos rfl] at run
      exact isFinite_iff.mpr (within_finite lower run)
    · rw [← (Prod.mk.inj (Except.ok.inj run)).1]
      exact lower
  next lower _ =>
    obtain ⟨l, shape⟩ := isFinite_iff.mp lower
    cases pair : s.below (⟨0, 1⟩ : Interval Extended) with
    | mk u rest =>
      obtain ⟨r, rfl⟩ := below_finite small pair
      rw [pair] at run
      rw [← (Prod.mk.inj (Except.ok.inj run)).1, shape, add_finite]
      rfl
  next upper =>
    obtain ⟨u, shape⟩ := isFinite_iff.mp upper
    cases pair : s.below (⟨0, 1⟩ : Interval Extended) with
    | mk l rest =>
      obtain ⟨r, rfl⟩ := below_finite small pair
      rw [pair] at run
      rw [← (Prod.mk.inj (Except.ok.inj run)).1, shape, sub_finite]
      rfl
  next => exact isFinite_iff.mpr (below_finite wide (Except.ok.inj run))

end RandomStream

namespace Searching

variable {β γ : Type} {step : Searching Extended β} {promise : β → Prop}

abbrev Gives (step : Searching Extended β) (promise : β → Prop) : Prop :=
  Ends (fun _ => True) step (fun value _ => promise value) fun _ _ => True

namespace Gives

theorem bind {next : β → Searching Extended γ} {last : γ → Prop} (first : Gives step promise)
    (rest : ∀ value, promise value → Gives (next value) last) : Gives (step >>= next) last :=
  Ends.bind first fun value => Ends.from_state fun _ holds => (rest value holds).here trivial

theorem pure {value : β} (holds : promise value) :
    Gives (Pure.pure value : Searching Extended β) promise := fun _ _ => holds

theorem anything (step : Searching Extended β) : Gives step fun _ => True := Ends.anything

theorem ofFault (result : Except Fault β) :
    Gives (Searching.ofFault result) fun value => result = .ok value :=
  (ofFault_ends fun _ _ _ => trivial).mono fun _ _ given => given.2

theorem draw (f : RandomStream → Except Fault (β × RandomStream)) :
    Gives (Searching.draw f) fun value => ∃ stream next, f stream = .ok (value, next) := by
  apply bind (anything _)
  intro s _
  apply bind (Gives.ofFault _)
  rintro ⟨value, next⟩ given
  apply bind (anything _)
  exact fun _ _ => pure ⟨_, next, given⟩

end Gives

end Searching

namespace Problem

open Searching

variable {p : Problem Extended} {v : Variable}

/-- What makes a search leave a variable alone. -/
structure Avoids (p : Problem Extended) (v : Variable) : Prop where
  basic : v ∉ p.basis.basic
  column : ∀ a ∈ p.basis.column v, Blank a
  relus : ∀ r ∈ p.query.relus, r.b ≠ v ∧ r.f ≠ v

theorem solveBasics_rational {basic : Array Variable} (absent : v ∉ basic)
    {values : Assignment Extended} (rational : RationalAt v values) :
    Gives (p.solveBasics basic values) (RationalAt v) := by
  apply Gives.bind (.anything _)
  intro s _
  split
  next => exact .pure rational
  next f _ =>
    split
    next => exact .pure rational
    next =>
      apply Gives.bind (.anything _)
      intro right _
      apply Gives.bind (.anything _)
      intro solved _
      apply (Gives.ofFault _).mono
      have each : ∀ (pairs : List (Variable × Extended)) values last, RationalAt v values →
          (∀ pair ∈ pairs, pair.1 ≠ v) → pairs.foldlM (fun values (x, value) =>
            ReluSolver.replace values x value) values = .ok last → RationalAt v last := by
        intro pairs
        induction pairs with
        | nil => exact fun _ _ rational _ run => Except.ok.inj run ▸ rational
        | cons pair rest ih =>
          intro values last rational apart run
          obtain ⟨next, placed, run⟩ := bind_eq_ok.mp run
          exact ih _ _ (rational.replace_other (apart pair (by simp)) placed)
            (fun other member => apart other (by simp [member])) run
      refine fun last _ run => each _ _ last rational (fun pair member same => absent ?_) run
      rw [← same]
      exact Array.mem_toList_iff.mp (List.of_mem_zip member).1

theorem repairRelu_cases {basic : Array Variable} {values repaired : Assignment Extended} {r : Relu}
    (run : p.repairRelu basic values r = .ok (some repaired)) :
    ∃ b f, fetch values r.b = .ok b ∧ fetch values r.f = .ok f ∧
      (replace values r.f (Relu.outputOf b) = .ok repaired ∨
        ∃ value, (value = f ∨ value = 0) ∧ replace values r.b value = .ok repaired) := by
  obtain ⟨b, readB, run⟩ := bind_eq_ok.mp run
  obtain ⟨f, readF, run⟩ := bind_eq_ok.mp run
  have written {x : Variable} {value : Extended}
      (run : (return some (← replace values x value) : Except Fault _) = .ok (some repaired)) :
      replace values x value = .ok repaired := by
    obtain ⟨changed, placed, same⟩ := bind_eq_ok.mp run
    rwa [← Option.some.inj (Except.ok.inj same)]
  refine ⟨b, f, readB, readF, ?_⟩
  dsimp only at run
  split at run
  · cases run
  split at run
  · exact .inl (written run)
  split at run
  · cases run
  split at run
  · exact .inr ⟨f, .inl rfl, written run⟩
  split at run
  · exact .inr ⟨0, .inr rfl, written run⟩
  · cases run

/-- What every single repair preserves, all of them preserve. -/
theorem repairRelus_induct {basic : Array Variable} {property : Assignment Extended → Prop}
    {relus : List Relu} (each : ∀ values repaired, ∀ r ∈ relus, property values →
      p.repairRelu basic values r = .ok (some repaired) → property repaired)
    {values repaired : Assignment Extended} (start : property values)
    (run : p.repairRelus basic values relus = .ok (some repaired)) : property repaired := by
  induction relus generalizing values repaired with
  | nil => cases run
  | cons r rest ih =>
    have later {values repaired} := @ih (fun values repaired other member =>
      each values repaired other (List.mem_cons_of_mem r member)) values repaired
    obtain ⟨first, here, run⟩ := bind_eq_ok.mp run
    cases first with
    | none => exact later start run
    | some changed =>
      have kept := each _ _ r (by simp) start here
      obtain ⟨others, tail, run⟩ := bind_eq_ok.mp run
      obtain rfl := Option.some.inj (Except.ok.inj run)
      cases others with
      | none => exact kept
      | some last => exact later kept tail

theorem leastExchange_eq : (leastExchange : Extended) = finite (1 / 1000000) := by
  change finite (Rat.ofScientific 1 true 6) = _
  congr 1
  norm_num [Rat.ofScientific_true_def]

namespace Avoids

variable (avoids : p.Avoids v)
include avoids

theorem exchangeColumn?_none {f : Factorization Extended} {k : Nat}
    {found : Option (Array Extended)} (run : p.exchangeColumn? f k v = .ok found) : found = none := by
  unfold exchangeColumn? at run
  split at run
  · exact (Except.ok.inj run).symm
  next column forward =>
    have blank := Factorization.forward_blank (by simpa using avoids.column) forward
    obtain ⟨a, entry, run⟩ := bind_eq_ok.mp run
    rw [← Except.ok.inj run, if_neg]
    rw [leastExchange_eq]
    exact Blank.abs_small (blank a (Array.mem_of_getElem? (fetch_eq_ok.mp entry))) (by norm_num)

theorem findEntering_ne {f : Factorization Extended} {s : Store Extended} {basic : Array Variable}
    {k attempts left : Nat} {candidates : List Variable} {entering : Variable}
    {column : Array Extended}
    (run : p.findEntering f s basic k attempts candidates = .ok (some (entering, column), left)) :
    entering ≠ v := by
  induction candidates generalizing attempts with
  | nil => cases run
  | cons x rest ih =>
    obtain ⟨fixed, -, run⟩ := bind_eq_ok.mp run
    split at run
    · exact ih run
    · split at run
      · cases run
      · obtain ⟨found, searched, run⟩ := bind_eq_ok.mp run
        cases found with
        | some found =>
          obtain rfl : x = entering := by
            have := (Prod.mk.inj (Except.ok.inj run)).1
            exact (Prod.mk.inj (Option.some.inj this)).1
          rintro rfl
          cases avoids.exchangeColumn?_none searched
        | none => exact ih run

theorem exchangeAt_avoids {basic : Array Variable} (absent : v ∉ basic) (attempts : Nat)
    (positions : List Nat) : Gives (p.exchangeAt basic attempts positions) fun last => v ∉ last := by
  have rule : Ends (fun _ => v ∉ basic) (p.exchangeAt basic attempts positions)
      (fun last _ => v ∉ last) fun _ _ => True := by
    refine p.exchangeAt_ends (fun basic _ => v ∉ basic) (fun _ _ _ _ _ => trivial) ?_ _ _ _
    intro basic s f k attempts left entering column exchanged changed absent searched _ placed member
    rw [← (replace_eq_ok.mp placed).2] at member
    rcases Array.mem_or_eq_of_mem_setIfInBounds member with old | new
    · exact absent old
    · exact avoids.findEntering_ne searched new.symm
  exact fun s _ => rule s absent

theorem repairRelu_rational {basic : Array Variable} {values repaired : Assignment Extended}
    (rational : RationalAt v values) {r : Relu} (member : r ∈ p.query.relus)
    (run : p.repairRelu basic values r = .ok (some repaired)) : RationalAt v repaired := by
  obtain ⟨input, output⟩ := avoids.relus r member
  obtain ⟨b, f, -, -, placed | ⟨value, -, placed⟩⟩ := repairRelu_cases run
  · exact rational.replace_other output placed
  · exact rational.replace_other input placed

theorem repairRelus_rational {basic : Array Variable} {values repaired : Assignment Extended}
    (rational : RationalAt v values)
    (run : p.repairRelus basic values p.query.relus = .ok (some repaired)) : RationalAt v repaired :=
  repairRelus_induct (fun _ _ _ member rational => avoids.repairRelu_rational rational member)
    rational run

theorem repairFor_rational {basic : Array Variable} (absent : v ∉ basic) (rounds : Nat)
    {values : Assignment Extended} (rational : RationalAt v values) :
    Gives (p.repairFor basic rounds values) (RationalAt v) := by
  induction rounds generalizing values with
  | zero => exact .pure rational
  | succ rounds ih =>
    apply (solveBasics_rational absent rational).bind
    intro solved rational
    apply Gives.bind (.ofFault _)
    intro changed repair
    cases changed with
    | none => exact .pure rational
    | some repaired => exact ih (avoids.repairRelus_rational rational repair)

omit avoids in
theorem assignEach_rational {pick : Interval Extended → Searching Extended Extended}
    (picks : ∀ bounds, Gives (pick bounds) (Scalar.isFinite · = true)) (vars : List Variable)
    {values : Assignment Extended} (rational : RationalAt v values) :
    Gives (assignEach pick vars values) (RationalAt v) := by
  induction vars generalizing values with
  | nil => exact .pure rational
  | cons w rest ih =>
    apply Gives.bind (.anything _)
    intro bounds _
    apply (picks bounds).bind
    intro value given
    apply Gives.bind (.ofFault _)
    intro changed placed
    exact ih (rational.replace given placed)

theorem tryCandidate_rational {basic : Array Variable} (absent : v ∉ basic)
    {pick : Interval Extended → Searching Extended Extended}
    (picks : ∀ bounds, Gives (pick bounds) (Scalar.isFinite · = true))
    {values : Assignment Extended} (rational : RationalAt v values) :
    Gives (p.tryCandidate basic pick values) fun result => RationalAt v result.2 := by
  apply (assignEach_rational picks _ rational).bind
  intro picked rational
  apply (avoids.repairFor_rational absent _ rational).bind
  intro repaired rational
  apply (solveBasics_rational absent rational).bind
  intro candidate rational
  apply Gives.bind (.anything _)
  intro _ _
  apply Gives.bind (.anything _)
  intro s _
  split
  · apply Gives.bind (.anything _)
    exact fun _ _ => .pure rational
  · exact .pure rational

theorem tryRandom_rational {basic : Array Variable} (absent : v ∉ basic) (attempts : Nat)
    {values : Assignment Extended} (rational : RationalAt v values) :
    Gives (p.tryRandom basic attempts values) fun found =>
      ∀ candidate, found = some candidate → RationalAt v candidate := by
  induction attempts generalizing values with
  | zero => exact .pure nofun
  | succ attempts ih =>
    have picks : ∀ bounds, Gives (draw (·.sample bounds)) fun a => Scalar.isFinite a = true :=
      fun bounds => (Gives.draw _).mono fun _ _ ⟨_, _, drawn⟩ => RandomStream.sample_finite drawn
    apply (avoids.tryCandidate_rational absent picks rational).bind
    rintro ⟨isSolution, candidate⟩ rational
    dsimp only
    split
    · exact .pure fun _ same => Option.some.inj same ▸ rational
    · exact ih rational

theorem tryCandidates_rational : Gives p.tryCandidates fun found =>
    ∀ candidate, found = some candidate → RationalAt v candidate := by
  have start : RationalAt v (Array.replicate p.query.size 0) := by
    intro a found
    rw [Array.getElem?_replicate] at found
    split at found
    · rw [← Option.some.inj found, zero_eq]
      rfl
    · cases found
  apply (avoids.exchangeAt_avoids (by simpa using avoids.basic) _ _).bind
  intro basic absent
  apply (avoids.tryCandidate_rational absent (fun i => .pure i.midpoint_finite) start).bind
  rintro ⟨isSolution, candidate⟩ rational
  dsimp only
  split
  · exact .pure fun _ same => Option.some.inj same ▸ rational
  · exact avoids.tryRandom_rational absent _ rational

theorem findSolution_rational : Gives p.findSolution fun found =>
    ∀ candidate, found = some candidate → RationalAt v candidate := by
  intro s _
  have tried := avoids.tryCandidates_rational s trivial
  unfold findSolution
  split
  next found t run =>
    split at run
    · cases run
      exact nofun
    · split at run
      next inner =>
        cases run
        rw [inner] at tried
        exact tried
      next => cases run
      next => cases run
  next => trivial

end Avoids

/-- A search that starts from a crash basis avoids the variables that nothing is about. -/
theorem avoids_of_loose {t : Tolerance Extended} {epsilon : ℚ} (same : t.epsilon = finite epsilon)
    (positive : 0 ≤ epsilon) (computed : CrashBasis.compute p.query t = .ok p.basis)
    (loose : p.query.Loose v) : p.Avoids v := by
  refine ⟨CrashBasis.compute_not_basic same positive computed loose.1, ?_, loose.2⟩
  intro a member
  obtain ⟨row, inside, rfl⟩ := List.mem_map.mp member
  have absent := loose.1 _ ((CrashBasis.compute_spec computed).1 row inside).1
  unfold Equation.coefficientOf
  split
  next addend found =>
    have here := List.find?_some found
    exact absurd ⟨addend, List.mem_of_find?_eq_some found, by simpa using here⟩ absent
  next => exact .zero

end Problem

end ReluSolver
