import Mathlib.Data.List.Forall2
import ReluSolver.Fault

/-! What a step on a state guarantees, whether it succeeds or fails. The rules
follow the program text: a guarantee of a sequence comes from one of each part. -/

namespace ReluSolver

variable {ε σ β γ : Type}

/-- From a state in `pre` a step succeeds in `post` or fails in `stuck`. -/
def Ends (pre : σ → Prop) (step : EStateM ε σ β) (post : β → σ → Prop)
    (stuck : ε → σ → Prop) : Prop :=
  ∀ state, pre state → match step state with
    | .ok value state => post value state
    | .error cause state => stuck cause state

/-- A step succeeds from every state in `pre`. -/
abbrev Returns (pre : σ → Prop) (step : EStateM ε σ β) (post : β → σ → Prop) : Prop :=
  Ends pre step post fun _ _ => False

/-- A property of the state survives a step, also where the step fails. -/
abbrev Preserves (property : σ → Prop) (step : EStateM ε σ β) : Prop :=
  Ends property step (fun _ => property) fun _ => property

namespace Ends

variable {pre : σ → Prop} {step : EStateM ε σ β} {post : β → σ → Prop} {stuck : ε → σ → Prop}

theorem weaken {weaker : σ → Prop} {stronger : β → σ → Prop} {worse : ε → σ → Prop}
    (ends : Ends weaker step stronger worse) (before : ∀ state, pre state → weaker state)
    (after : ∀ value state, stronger value state → post value state)
    (failed : ∀ cause state, worse cause state → stuck cause state) :
    Ends pre step post stuck := by
  intro state holds
  have result := ends state (before state holds)
  cases run : step state with
  | ok value last => rw [run] at result; exact after value last result
  | error cause last => rw [run] at result; exact failed cause last result

theorem strengthen {weaker : σ → Prop} (ends : Ends weaker step post stuck)
    (before : ∀ state, pre state → weaker state) : Ends pre step post stuck :=
  fun state holds => ends state (before state holds)

theorem mono {stronger : β → σ → Prop} (ends : Ends pre step stronger stuck)
    (after : ∀ value state, stronger value state → post value state) :
    Ends pre step post stuck :=
  ends.weaken (fun _ holds => holds) after fun _ _ holds => holds

theorem bind {middle : β → σ → Prop} {next : β → EStateM ε σ γ} {last : γ → σ → Prop}
    (first : Ends pre step middle stuck) (rest : ∀ value, Ends (middle value) (next value) last stuck) :
    Ends pre (step >>= next) last stuck := by
  intro state holds
  have result := first state holds
  change match EStateM.bind step next state with
    | .ok value state => last value state
    | .error cause state => stuck cause state
  unfold EStateM.bind
  cases run : step state with
  | ok value between => rw [run] at result; exact rest value between result
  | error cause between => rw [run] at result; exact result

/-- `bind` where the guarantee in between has to be written out. -/
theorem through (middle : β → σ → Prop) {next : β → EStateM ε σ γ} {last : γ → σ → Prop}
    (first : Ends pre step middle stuck) (rest : ∀ value, Ends (middle value) (next value) last stuck) :
    Ends pre (step >>= next) last stuck :=
  first.bind rest

theorem pure {value : β} (holds : ∀ state, pre state → post value state) :
    Ends pre (Pure.pure value : EStateM ε σ β) post stuck := holds

theorem throw {cause : ε} (holds : ∀ state, pre state → stuck cause state) :
    Ends pre (MonadExcept.throw cause : EStateM ε σ β) post stuck := holds

theorem get {post : σ → σ → Prop} (holds : ∀ state, pre state → post state state) :
    Ends pre (MonadState.get : EStateM ε σ σ) post stuck := holds

theorem get_bind {next : σ → EStateM ε σ γ} {last : γ → σ → Prop}
    (rest : ∀ state, pre state → Ends (· = state) (next state) last stuck) :
    Ends pre (MonadState.get >>= next) last stuck :=
  fun state holds => rest state holds state rfl

theorem set {value : σ} {post : PUnit → σ → Prop} (holds : ∀ state, pre state → post ⟨⟩ value) :
    Ends pre (MonadStateOf.set value : EStateM ε σ PUnit) post stuck := holds

theorem modifyGet {change : σ → β × σ}
    (holds : ∀ state, pre state → post (change state).1 (change state).2) :
    Ends pre (MonadStateOf.modifyGet change : EStateM ε σ β) post stuck := holds

/-- Only one state is of interest, namely the one that a step is taken from. -/
theorem from_state (each : ∀ state, pre state → Ends (· = state) step post stuck) :
    Ends pre step post stuck :=
  fun state holds => each state holds state rfl

theorem here (ends : Ends pre step post stuck) {state : σ} (holds : pre state) :
    Ends (· = state) step post stuck :=
  ends.strengthen fun _ same => same ▸ holds

theorem bind_kept {promise : β → Prop} {next : β → EStateM ε σ γ} {last : γ → σ → Prop}
    (first : Ends pre step (fun value state => pre state ∧ promise value) stuck)
    (rest : ∀ value, promise value → Ends pre (next value) last stuck) :
    Ends pre (step >>= next) last stuck :=
  first.bind fun value => from_state fun _ both => (rest value both.2).here both.1

theorem anything : Ends pre step (fun _ _ => True) fun _ _ => True := by
  intro state _
  cases step state <;> trivial

theorem ok (ends : Ends pre step post stuck) {state last : σ} {value : β} (holds : pre state)
    (run : step state = .ok value last) : post value last := by
  have result := ends state holds
  rwa [run] at result

theorem error (ends : Ends pre step post stuck) {state last : σ} {cause : ε} (holds : pre state)
    (run : step state = .error cause last) : stuck cause last := by
  have result := ends state holds
  rwa [run] at result

end Ends

theorem Returns.run {pre : σ → Prop} {step : EStateM ε σ β} {post : β → σ → Prop}
    (returns : Returns pre step post) {state : σ} (holds : pre state) :
    ∃ value last, step state = .ok value last ∧ post value last := by
  have result := returns state holds
  cases run : step state with
  | ok value last => rw [run] at result; exact ⟨value, last, rfl, result⟩
  | error cause last => rw [run] at result; exact result.elim

/-- Of a failure that does not happen everything holds. -/
theorem Returns.ends {pre : σ → Prop} {step : EStateM ε σ β} {post : β → σ → Prop}
    {stuck : ε → σ → Prop} (returns : Returns pre step post) : Ends pre step post stuck :=
  returns.weaken (fun _ holds => holds) (fun _ _ kept => kept) fun _ _ failed => failed.elim

theorem run_bind_eq_ok {x : EStateM ε σ β} {next : β → EStateM ε σ γ} {state last : σ} {result : γ} :
    (x >>= next) state = .ok result last ↔
      ∃ value between, x state = .ok value between ∧ next value between = .ok result last := by
  change EStateM.bind x next state = _ ↔ _
  unfold EStateM.bind
  cases x state with
  | ok value between =>
    constructor
    · exact fun run => ⟨value, between, rfl, run⟩
    · rintro ⟨_, _, same, run⟩
      cases same
      exact run
  | error cause between => exact ⟨nofun, fun ⟨_, _, same, _⟩ => nomatch same⟩

theorem bind_eq_ok {x : Except ε β} {next : β → Except ε γ} {result : γ} :
    (x >>= next) = .ok result ↔ ∃ value, x = .ok value ∧ next value = .ok result := by
  cases x with
  | ok value => exact ⟨fun same => ⟨value, rfl, same⟩, fun ⟨_, same, later⟩ => Except.ok.inj same ▸ later⟩
  | error cause => exact ⟨nofun, fun ⟨_, same, _⟩ => nomatch same⟩

theorem bind_eq_error {x : Except ε β} {next : β → Except ε γ} {cause : ε} :
    (x >>= next) = .error cause ↔
      x = .error cause ∨ ∃ value, x = .ok value ∧ next value = .error cause := by
  cases x with
  | ok value => simp [bind, Except.bind]
  | error other => simp [bind, Except.bind]

theorem map_eq_ok {x : Except ε β} {f : β → γ} {result : γ} :
    f <$> x = .ok result ↔ ∃ value, x = .ok value ∧ f value = result := by
  cases x with
  | ok value => exact ⟨fun same => ⟨value, rfl, Except.ok.inj same⟩, fun ⟨_, same, image⟩ =>
      Except.ok.inj same ▸ congrArg Except.ok image⟩
  | error cause => exact ⟨nofun, fun ⟨_, same, _⟩ => nomatch same⟩

theorem map_eq_error {x : Except ε β} {f : β → γ} {cause : ε} :
    f <$> x = .error cause ↔ x = .error cause := by
  cases x with
  | ok value => exact ⟨nofun, nofun⟩
  | error other => exact ⟨fun same => congrArg _ (Except.error.inj same), fun same =>
      congrArg _ (Except.error.inj same)⟩

theorem result_eq_some {x : EStateM ε σ β} {state : σ} {value : β} :
    x.run' state = some value ↔ ∃ last, x state = .ok value last := by
  unfold EStateM.run' EStateM.run
  cases x state with
  | ok other last => simp
  | error cause last => simp

theorem toOption_map_eq_some {x : Except ε β} {f : β → γ} {result : γ}
    (given : x.toOption.map f = some result) : ∃ value, x = .ok value ∧ f value = result := by
  cases x with
  | ok value => exact ⟨value, rfl, Option.some.inj given⟩
  | error => cases given

theorem eq_error {x : Except ε β} {cause : ε}
    (given : (match x with | .ok _ => none | .error cause => some cause) = some cause) :
    x = .error cause := by
  cases x with
  | ok => cases given
  | error other => rw [Option.some.inj given]

theorem mapError_eq_ok {ε' : Type} {x : Except ε β} {f : ε → ε'} {value : β} :
    x.mapError f = .ok value ↔ x = .ok value := by
  cases x with
  | ok other => exact ⟨fun same => congrArg _ (Except.ok.inj same), fun same => congrArg _ (Except.ok.inj same)⟩
  | error => exact ⟨nofun, nofun⟩

/-- What a loop has done so far holds of the items so far. -/
theorem foldlM_induct {f : σ → β → Except ε σ} (property : List β → σ → Prop)
    {init last : σ} {items : List β} (start : property [] init)
    (step : ∀ earlier state item next, property earlier state → f state item = .ok next →
      property (earlier ++ [item]) next)
    (run : items.foldlM f init = .ok last) : property items last := by
  have each : ∀ (rest earlier : List β) state, property earlier state →
      rest.foldlM f state = .ok last → property (earlier ++ rest) last := by
    intro rest
    induction rest with
    | nil =>
      intro earlier state holds run
      rw [List.append_nil]
      exact Except.ok.inj run ▸ holds
    | cons item rest ih =>
      intro earlier state holds run
      obtain ⟨next, made, run⟩ := bind_eq_ok.mp run
      have later := ih (earlier ++ [item]) next (step earlier state item next holds made) run
      rwa [List.append_assoc] at later
  exact each items [] init start run

theorem foldlM_total {f : σ → β → Except ε σ} {property : σ → Prop} {items : List β} {init : σ}
    (start : property init)
    (step : ∀ state item, item ∈ items → property state →
      ∃ next, f state item = .ok next ∧ property next) :
    ∃ last, items.foldlM f init = .ok last ∧ property last := by
  induction items generalizing init with
  | nil => exact ⟨init, rfl, start⟩
  | cons item rest ih =>
    obtain ⟨next, made, holds⟩ := step init item (by simp) start
    obtain ⟨last, run, done⟩ := ih holds fun state other member =>
      step state other (List.mem_cons_of_mem _ member)
    exact ⟨last, bind_eq_ok.mpr ⟨next, made, run⟩, done⟩

theorem forall₂_mem_right {related : β → γ → Prop} {items : List β} {images : List γ}
    (paired : List.Forall₂ related items images) {image : γ} (member : image ∈ images) :
    ∃ item ∈ items, related item image := by
  induction paired with
  | nil => cases member
  | cons here _ ih =>
    rcases List.mem_cons.mp member with rfl | later
    · exact ⟨_, by simp, here⟩
    · obtain ⟨item, inside, rel⟩ := ih later
      exact ⟨item, List.mem_cons_of_mem _ inside, rel⟩

theorem mapM_forall₂ {f : β → Except ε γ} {items : List β} {images : List γ}
    (run : items.mapM f = .ok images) :
    List.Forall₂ (fun item image => f item = .ok image) items images := by
  induction items generalizing images with
  | nil =>
    obtain rfl : [] = images := Except.ok.inj run
    exact .nil
  | cons item rest ih =>
    rw [List.mapM_cons] at run
    obtain ⟨image, here, run⟩ := bind_eq_ok.mp run
    obtain ⟨later, others, run⟩ := bind_eq_ok.mp run
    obtain rfl := Except.ok.inj run
    exact .cons here (ih others)

theorem mapM_total {f : β → Except ε γ} {related : β → γ → Prop} {items : List β}
    (each : ∀ item ∈ items, ∃ image, f item = .ok image ∧ related item image) :
    ∃ images, items.mapM f = .ok images ∧ List.Forall₂ related items images := by
  induction items with
  | nil => exact ⟨[], rfl, .nil⟩
  | cons item rest ih =>
    obtain ⟨image, here, fits⟩ := each item (by simp)
    obtain ⟨images, run, others⟩ := ih fun other member => each other (by simp [member])
    refine ⟨image :: images, ?_, .cons fits others⟩
    rw [List.mapM_cons, here]
    simp only [bind, Except.bind, run]
    rfl

theorem mapM_eq_some {f : β → Option γ} {items : List β} {images : List γ} :
    items.mapM f = some images ↔ List.Forall₂ (fun item image => f item = some image) items images := by
  induction items generalizing images with
  | nil => simp [eq_comm]
  | cons item rest ih =>
    simp only [List.mapM_cons, Option.bind_eq_bind, Option.bind_eq_some_iff, ih,
      List.forall₂_cons_left_iff]
    constructor
    · rintro ⟨image, here, later, others, same⟩
      exact ⟨image, later, here, others, (Option.some.inj same).symm⟩
    · rintro ⟨image, later, here, others, rfl⟩
      exact ⟨image, here, later, others, rfl⟩

theorem mapM_isSome {f : β → Option γ} {items : List β} :
    (items.mapM f).isSome = true ↔ ∀ item ∈ items, (f item).isSome = true := by
  induction items with
  | nil => simp
  | cons item rest ih =>
    rw [List.mapM_cons, List.forall_mem_cons, ← ih]
    cases f item <;> cases rest.mapM f <;> simp

theorem mapM_pure {m : Type → Type} [Monad m] [LawfulMonad m] {f : β → m γ} {g : β → γ}
    {items : List β} (each : ∀ item ∈ items, f item = pure (g item)) :
    items.mapM f = pure (items.map g) := by
  induction items with
  | nil => rw [List.mapM_nil, List.map_nil]
  | cons item rest ih =>
    rw [List.mapM_cons, each item (by simp), pure_bind,
      ih fun other member => each other (by simp [member]), pure_bind, List.map_cons]

theorem mapM_congr {m : Type → Type} [Monad m] [LawfulMonad m] {f g : β → m γ} {items : List β}
    (each : ∀ item ∈ items, f item = g item) : items.mapM f = items.mapM g := by
  induction items with
  | nil => rfl
  | cons item rest ih =>
    rw [List.mapM_cons, List.mapM_cons, each item (by simp),
      ih fun other member => each other (by simp [member])]

theorem filterM_pure {m : Type → Type} [Monad m] [LawfulMonad m] {test : β → m Bool}
    {keeps : β → Bool} {items : List β} (each : ∀ item ∈ items, test item = pure (keeps item)) :
    items.filterM test = pure (items.filter keeps) := by
  have gathered (kept : List β) :
      items.filterAuxM test kept = pure ((items.filter keeps).reverse ++ kept) := by
    induction items generalizing kept with
    | nil => rfl
    | cons item rest ih =>
      rw [List.filterAuxM, each item (by simp), pure_bind,
        ih fun other member => each other (by simp [member])]
      cases kind : keeps item <;> simp [kind]
  rw [List.filterM, gathered, pure_bind]
  simp

end ReluSolver
