import ReluSolver.Number.Extended
import ReluSolver.Proofs.EquationTerms
import ReluSolver.Proofs.QueryBuilding
import ReluSolver.Reading.QueryText

/-! What reading a query guarantees about any text. A damaged text is refused
with a reason; a rule for building queries is broken by two kinds of text only,
one that declares more variables than fit into memory and one in which a ReLU is
its own input. -/

namespace ReluSolver.Reading

variable {α β γ : Type}

/-- From a source a reader returns in `post`, or refuses the text for a reason in
`refusal`. -/
def Reads (step : Reader α β) (source : Source) (post : β → Source → Prop)
    (refusal : LoadError α → Prop) : Prop :=
  match step source with
  | .ok (value, rest) => post value rest
  | .error cause => refusal cause

namespace Reads

variable {step : Reader α β} {source : Source} {post : β → Source → Prop}
  {refusal : LoadError α → Prop}

theorem pure {value : β} (holds : post value source) :
    Reads (Pure.pure value : Reader α β) source post refusal := holds

theorem throw {cause : LoadError α} (refused : refusal cause) :
    Reads (MonadExcept.throw cause : Reader α β) source post refusal := refused

theorem bind {middle : β → Source → Prop} {next : β → Reader α γ} {last : γ → Source → Prop}
    (first : Reads step source middle refusal)
    (rest : ∀ value between, middle value between → Reads (next value) between last refusal) :
    Reads (step >>= next) source last refusal := by
  unfold Reads at first
  change match Except.bind (step source) (fun between => next between.1 between.2) with
    | .ok (value, source) => last value source
    | .error cause => refusal cause
  cases run : step source with
  | ok between => rw [run] at first; exact rest between.1 between.2 first
  | error cause => rw [run] at first; exact first

theorem throw_bind {cause : LoadError α} {next : γ → Reader α β} (refused : refusal cause) :
    Reads ((MonadExcept.throw cause : Reader α γ) >>= next) source post refusal := refused

theorem mono {stronger : β → Source → Prop} (reads : Reads step source stronger refusal)
    (after : ∀ value rest, stronger value rest → post value rest) :
    Reads step source post refusal := by
  unfold Reads at reads ⊢
  cases run : step source with
  | ok last => rw [run] at reads; exact after last.1 last.2 reads
  | error cause => rw [run] at reads; exact reads

theorem forEach [Scalar α] {step : Nat → β → Reader α β} {count start : Nat} {value : β}
    (property : Nat → β → Source → Prop) (holds : property start value source)
    (each : ∀ i, start ≤ i → i < start + count → ∀ value source, property i value source →
      Reads (step i value) source (property (i + 1)) refusal) :
    Reads (forEach step count start value) source (property (start + count)) refusal := by
  induction count generalizing start value source with
  | zero => exact pure holds
  | succ count ih =>
    unfold Reading.forEach
    refine (each start (by omega) (by omega) value source holds).bind fun next between kept => ?_
    have later := ih kept fun i low high => each i (by omega) (by omega)
    rwa [show start + 1 + count = start + (count + 1) by omega] at later

end Reads

namespace Source

/-- `rest` is what a source leaves after its next word. -/
def Word (source rest : Source) : Prop := ∃ word, source.next = .ok (some word, rest)

def Presents (source : Source) (n : Nat) (rest : Source) : Prop :=
  ∃ word, source.next = .ok (some word, rest) ∧ readIndex? word = some n

/-- What a number of parts of one kind leave of a source. -/
inductive Past (part : Source → Source → Prop) (source : Source) : Nat → Source → Prop
  | none : Past part source 0 source
  | next {n : Nat} {between rest : Source} :
      Past part source n between → part between rest → Past part source (n + 1) rest

/-- The number of terms, the scalar, and two words for each of the terms. -/
def EquationText (source rest : Source) : Prop :=
  ∃ count terms, source.Presents count terms ∧ terms.Past Word (1 + 2 * count) rest

variable {source between rest : Source} {n : Nat}

theorem Presents.word (presents : source.Presents n rest) : source.Word rest := by
  obtain ⟨word, read, -⟩ := presents
  exact ⟨word, read⟩

end Source

structure Header where
  size : Nat
  equations : Nat
  relus : Nat
  inputs : Nat
  outputs : Nat

/-- The first five words of a source spell the numbers, and `body` is what they leave. -/
def Source.Declares (source : Source) (h : Header) (body : Source) : Prop :=
  ∃ first second third fourth, source.Presents h.size first ∧ first.Presents h.equations second ∧
    second.Presents h.relus third ∧ third.Presents h.inputs fourth ∧ fourth.Presents h.outputs body

/-- The ReLUs of a source begin after its header, its inputs and outputs, the bounds of its variables
and its equations. -/
def Source.RelusFrom (source : Source) (h : Header) (start : Source) : Prop :=
  ∃ body bounded, source.Declares h body ∧
    body.Past Word (h.inputs + h.outputs + 2 * h.size) bounded ∧
    bounded.Past EquationText h.equations start

/-- The texts that break a rule for building queries: too many variables are declared, or one of
the declared ReLUs names the same variable twice. -/
inductive Breaks (source : Source) : Fault → Prop
  | tooLarge {size : Nat} {rest : Source} :
      source.Presents size rest → maxVariables < size → Breaks source .overflow
  | reluOfItself {h : Header} {start before between rest : Source} {i : Nat} {x : Variable} :
      source.RelusFrom h start → i < h.relus → start.Past Source.Word (2 * i) before →
      before.Presents x between → between.Presents x rest → x < h.size →
      Breaks source .reluOfItself

/-- A reason to refuse the text, or one of the faults that it provokes. -/
def Refusal (source : Source) (cause : LoadError α) : Prop :=
  ∀ fault, cause = .fault fault → Breaks source fault

theorem liftFault_reads {result : Except Fault β} {value : β} {source : Source}
    {post : β → Source → Prop} {refusal : LoadError α → Prop} (built : result = .ok value)
    (holds : post value source) : Reads (liftFault result : Reader α β) source post refusal := by
  subst built
  exact .pure holds

section Faults

variable {text start source : Source} {part : Section} {size n : Nat}

theorem word_reads : Reads (word part : Reader α (List Char)) source
    (fun chars rest => source.next = .ok (some chars, rest)) (Refusal text) := by
  simp only [word, Reads, bind, StateT.bind, get, getThe, MonadStateOf.get, StateT.get, Except.bind,
    Pure.pure, Except.pure]
  cases read : source.next with
  | error => exact fun _ same => nomatch same
  | ok result =>
    obtain ⟨_ | chars, rest⟩ := result
    · exact fun _ same => nomatch same
    · rfl

theorem index_reads : Reads (index part : Reader α Nat) source
    (fun n rest => source.Presents n rest) (Refusal text) := by
  refine word_reads.bind fun chars rest next => ?_
  split
  next n read => exact .pure ⟨chars, next, read⟩
  next => exact .throw fun _ same => nomatch same

theorem knownVariable_reads : Reads (knownVariable size part : Reader α Variable) source
    (fun x rest => x < size ∧ source.Presents x rest) (Refusal text) := by
  refine index_reads.bind fun x rest presents => ?_
  split
  next inside => exact .pure ⟨inside, presents⟩
  next => exact .throw fun _ same => nomatch same

theorem header_reads {β : Type} {next : Nat → Nat → Nat → Nat → Nat → Reader α β}
    {post : β → Source → Prop}
    (rest : ∀ h body, text.Declares h body →
      Reads (next h.size h.equations h.relus h.inputs h.outputs) body post (Refusal text)) :
    Reads (do
      let size ← index .header
      let equations ← index .header
      let relus ← index .header
      let inputs ← index .header
      let outputs ← index .header
      next size equations relus inputs outputs : Reader α β) text post (Refusal text) := by
  refine index_reads.bind fun size _ first => index_reads.bind fun equations _ second => ?_
  refine index_reads.bind fun relus _ third => index_reads.bind fun inputs _ fourth => ?_
  refine index_reads.bind fun outputs body last => ?_
  exact rest ⟨size, equations, relus, inputs, outputs⟩ body ⟨_, _, _, _, first, second, third, fourth, last⟩

/-- A query under construction: no part of it is about an unknown variable as long as the number of
variables stays the same. -/
def Started (size : Nat) (place : Source → Prop) (q : Query α) (rest : Source) : Prop :=
  q.size = size ∧ place rest

/-- A build step that names known variables only is accepted. -/
theorem liftFault_started {result : Except Fault (Query α)} {place : Source → Prop}
    (placed : place source) (built : ∃ last, result = .ok last ∧ last.size = size) :
    Reads (liftFault result : Reader α (Query α)) source (Started size place) (Refusal text) := by
  obtain ⟨last, run, same⟩ := built
  exact liftFault_reads run ⟨same, placed⟩

/-! Every part keeps the number of variables, so no later step names an unknown one. -/

variable {q : Query α}

theorem input_started (started : Started size (start.Past Source.Word n) q source) :
    Reads (do liftFault (q.withInput (← knownVariable size .inputs)) : Reader α (Query α)) source
      (Started size (start.Past Source.Word (n + 1))) (Refusal text) := by
  obtain ⟨rfl, past⟩ := started
  refine knownVariable_reads.bind fun x rest ⟨inside, presents⟩ => ?_
  exact liftFault_started (past.next presents.word) (Query.withInput_total inside)

theorem output_started (started : Started size (start.Past Source.Word n) q source) :
    Reads (do liftFault (q.withOutput (← knownVariable size .outputs)) : Reader α (Query α)) source
      (Started size (start.Past Source.Word (n + 1))) (Refusal text) := by
  obtain ⟨rfl, past⟩ := started
  refine knownVariable_reads.bind fun x rest ⟨inside, presents⟩ => ?_
  exact liftFault_started (past.next presents.word) (Query.withOutput_total inside)

theorem relu_started {h : Header} {i : Nat} (from_start : text.RelusFrom h start) (among : i < h.relus)
    (started : Started h.size (start.Past Source.Word (2 * i)) q source) :
    Reads (do
      let b ← knownVariable h.size .relus
      let f ← knownVariable h.size .relus
      liftFault (q.withRelu b f) : Reader α (Query α)) source
      (Started h.size (start.Past Source.Word (2 * (i + 1)))) (Refusal text) := by
  obtain ⟨same, past⟩ := started
  refine knownVariable_reads.bind fun b between ⟨input, first⟩ => ?_
  refine knownVariable_reads.bind fun f rest ⟨output, second⟩ => ?_
  by_cases itself : b = f
  · subst itself
    rw [Query.withRelu, dif_pos (same ▸ input), dif_pos (same ▸ input), if_pos rfl]
    refine .throw fun fault same => ?_
    cases same
    exact .reluOfItself from_start among past first second input
  · rw [← same] at input output ⊢
    exact liftFault_started ((past.next first.word).next second.word)
      (Query.withRelu_total input output itself)

variable [Scalar α]

theorem number_reads : Reads (number part : Reader α α) source
    (fun _ rest => source.Word rest) (Refusal text) := by
  refine word_reads.bind fun chars rest next => ?_
  split
  next => exact .pure ⟨chars, next⟩
  next => exact .throw fun _ same => nomatch same

theorem bounds_started {validate : Bool} {x : Nat} (inside : x < size)
    (started : Started size (start.Past Source.Word n) q source) :
    Reads (readBounds validate x q) source (Started size (start.Past Source.Word (n + 2)))
      (Refusal text) := by
  obtain ⟨rfl, past⟩ := started
  refine number_reads.bind fun lower between first => ?_
  refine number_reads.bind fun upper rest second => ?_
  dsimp only
  split
  next => exact .throw_bind fun _ same => nomatch same
  next => exact liftFault_started ((past.next first).next second) (Query.withBounds_total inside _)

theorem readEquation_reads :
    Reads (readEquation size) source
      (fun (e : Equation α) rest => (∀ a ∈ e.addends, a.var < size) ∧ source.EquationText rest)
      (Refusal text) := by
  refine index_reads.bind fun count terms declared => ?_
  refine number_reads.bind fun scalar between first => ?_
  have begun : terms.Past Source.Word (1 + 2 * 0) between := .next .none first
  refine (Reads.forEach (fun i (e : Equation α) rest =>
    (∀ a ∈ e.addends, a.var < size) ∧ terms.Past Source.Word (1 + 2 * i) rest)
    ⟨by simp [Equation.constant], begun⟩ fun i _ _ e source ⟨known, past⟩ => ?_).mono ?_
  · refine number_reads.bind fun coefficient between first => ?_
    refine knownVariable_reads.bind fun x rest ⟨inside, second⟩ =>
      .pure ⟨?_, (past.next first).next second.word⟩
    intro a member
    rcases Equation.addTo_mentions member with same | ⟨b, old, same⟩
    · exact same ▸ inside
    · exact same ▸ known b old
  · intro e rest ⟨known, past⟩
    exact ⟨known, count, terms, declared, by simpa using past⟩

theorem equation_started (started : Started size (start.Past Source.EquationText n) q source) :
    Reads (do liftFault (q.withEquation (← readEquation size)) : Reader α (Query α)) source
      (Started size (start.Past Source.EquationText (n + 1))) (Refusal text) := by
  obtain ⟨rfl, past⟩ := started
  refine readEquation_reads.bind fun e rest ⟨known, here⟩ => ?_
  exact liftFault_started (past.next here) (Query.withEquation_total known)

theorem readQuery_reads {validate : Bool} :
    Reads (readQuery validate : Reader α (Query α)) text (fun _ _ => True) (Refusal text) := by
  refine header_reads fun h body declared => ?_
  dsimp only
  split
  next large =>
    refine .throw_bind fun fault same => ?_
    cases same
    obtain ⟨_, _, _, _, first, -⟩ := declared
    exact .tooLarge first large
  next =>
    have started : Started h.size (body.Past Source.Word (0 + 0))
      (Query.unconstrained (α := α) h.size) body := ⟨rfl, .none⟩
    refine (Reads.forEach (fun i => Started h.size (body.Past Source.Word i)) started
      fun _ _ _ _ _ => input_started).bind fun q rest started => ?_
    refine (Reads.forEach (fun i => Started h.size (body.Past Source.Word (h.inputs + i)))
      (by simpa using started) fun _ _ _ _ _ => output_started).bind fun q rest started => ?_
    refine (Reads.forEach (fun x => Started h.size (body.Past Source.Word (h.inputs + h.outputs + 2 * x)))
      (by simpa using started) fun x _ inside _ _ => bounds_started (by omega)).bind
        fun q bounded started => ?_
    obtain ⟨same, past⟩ := started
    refine (Reads.forEach (fun i => Started h.size (bounded.Past Source.EquationText i))
      ⟨same, .none⟩ fun _ _ _ _ _ => equation_started).bind fun q start started => ?_
    obtain ⟨same, past'⟩ := started
    have from_start : text.RelusFrom h start :=
      ⟨body, bounded, declared, by simpa using past, by simpa using past'⟩
    exact (Reads.forEach (fun i => Started h.size (start.Past Source.Word (2 * i))) ⟨same, .none⟩
      fun i _ among _ _ => relu_started from_start (by omega)).mono fun _ _ _ => trivial

/-- Whatever the text is, loading returns a query or a reason to refuse the text,
unless the text breaks a rule for building queries. -/
theorem load_breaks (source : Source) (validate : Bool) {fault : Fault}
    (broken : load (α := α) source validate = .error (.fault fault)) : Breaks source fault := by
  have reads : Reads (readQuery validate : Reader α (Query α)) source _ _ := readQuery_reads
  unfold Reads at reads
  cases run : readQuery (α := α) validate source with
  | ok result =>
    rw [load, StateT.run', run] at broken
    cases broken
  | error cause =>
    rw [run] at reads
    rw [load, StateT.run', run] at broken
    exact reads fault (Except.error.inj broken)

omit [Scalar α] in
theorem eq_fault {result : Except (LoadError α) β} {fault : Fault}
    (given : (match result with | .error (.fault broken) => some broken | _ => none) = some fault) :
    result = .error (.fault fault) := by
  split at given
  · rw [Option.some.inj given]
  · cases given

/-- The ReLU of this text is its own input, whether or not bounds are validated. -/
theorem load_breaks_reluOfItself :
    let text := Source.ofString "1 0 1 0 0  0 1  0 0"
    load (α := Extended) text true = .error (.fault .reluOfItself) ∧
      load (α := Extended) text false = .error (.fault .reluOfItself) ∧
      Breaks text .reluOfItself := by
  have validated : load (α := Extended) (.ofString "1 0 1 0 0  0 1  0 0") true =
      .error (.fault .reluOfItself) := eq_fault (by decide +kernel)
  have unchecked : load (α := Extended) (.ofString "1 0 1 0 0  0 1  0 0") false =
      .error (.fault .reluOfItself) := eq_fault (by decide +kernel)
  exact ⟨validated, unchecked, load_breaks _ true validated⟩

end Faults

end ReluSolver.Reading
