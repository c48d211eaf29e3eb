import ReluSolver.Proofs.QueryReading
import ReluSolver.Proofs.WordLayout

/-! Reading undoes writing. When the words of a text spell the counts and the parts of
a query in their order, the query is what loading returns, however the words are laid
out. -/

namespace ReluSolver

open Reading

variable {α : Type} [Scalar α]

/-- What a word stands for. -/
inductive Token (α : Type) where
  | index (n : Nat)
  | number (x : α)

def Token.SpelledBy : Token α → List Char → Prop
  | index n, word => readIndex? word = some n
  | number x, word => ∃ numeral, Numeral.ofChars? word = some numeral ∧ numeral.toScalar = x

instance [DecidableEq α] (token : Token α) (word : List Char) : Decidable (token.SpelledBy word) :=
  match token with
  | .index n => inferInstanceAs (Decidable (readIndex? word = some n))
  | .number x => decidable_of_iff (∃ numeral ∈ Numeral.ofChars? word, numeral.toScalar = x) (by
      simp [Token.SpelledBy])

def Interval.tokens (i : Interval α) : List (Token α) := [.number i.lower, .number i.upper]

def Addend.tokens (a : Addend α) : List (Token α) := [.number a.coefficient, .index a.var]

def Equation.tokens (e : Equation α) : List (Token α) :=
  .index e.addends.length :: .number e.scalar :: e.addends.flatMap Addend.tokens

def Relu.tokens (r : Relu) : List (Token α) := [.index r.b, .index r.f]

/-- The words of a query: its counts, its inputs and outputs, and the bounds, equations
and ReLUs. -/
def Query.tokens (q : Query α) : List (Token α) :=
  .index q.size :: .index q.equations.length :: .index q.relus.length :: .index q.inputs.length ::
    .index q.outputs.length :: (List.flatMap (fun x => [Token.index x]) q.inputs ++
    (List.flatMap (fun x => [Token.index x]) q.outputs ++
    (q.bounds.toList.flatMap Interval.tokens ++
    (q.equations.flatMap Equation.tokens ++ q.relus.flatMap Relu.tokens))))

/-- A query that no step of building it folds or refuses. -/
structure Query.Plain (q : Query α) : Prop where
  size : q.size ≤ maxVariables
  inputs : q.inputs.Nodup
  outputs : q.outputs.Nodup
  ordered : ∀ i ∈ q.bounds.toList, Scalar.isUndefined i.lower = false ∧
    Scalar.isUndefined i.upper = false ∧ ¬ i.upper < i.lower
  distinct : ∀ e ∈ q.equations, (e.addends.map (·.var)).Nodup
  nonzero : ∀ e ∈ q.equations, ∀ a ∈ e.addends, (a.coefficient == 0) = false
  apart : ∀ r ∈ q.relus, r.b ≠ r.f

/-- The query that the first so many of each part make up. -/
def Query.firstParts (q : Query α) (inputs outputs bounds equations relus : Nat) : Query α where
  size := q.size
  bounds := Vector.ofFn fun i => if i < bounds then q.bounds[i] else Interval.all
  equations := q.equations.take equations
  relus := q.relus.take relus
  inputs := q.inputs.take inputs
  outputs := q.outputs.take outputs
  solution := none
  equations_known := fun e member => q.equations_known e (List.mem_of_mem_take member)
  relus_known := fun r member => q.relus_known r (List.mem_of_mem_take member)
  inputs_known := fun x member => q.inputs_known x (List.mem_of_mem_take member)
  outputs_known := fun x member => q.outputs_known x (List.mem_of_mem_take member)

namespace Query

variable {q : Query α} {i inputs outputs bounds equations relus : Nat}

theorem firstParts_none : q.firstParts 0 0 0 0 0 = unconstrained q.size := by
  have unbounded : (Vector.ofFn fun _ : Fin q.size => Interval.all) =
      Vector.replicate q.size (Interval.all : Interval α) := by
    ext
    simp
  simp [firstParts, unconstrained, unbounded]

theorem firstParts_all :
    q.firstParts q.inputs.length q.outputs.length q.size q.equations.length q.relus.length =
      { q with solution := none } := by
  simp [firstParts]

theorem notMem_take {β : Type} {items : List β} (distinct : items.Nodup) (inside : i < items.length) :
    items[i] ∉ items.take i := by
  intro member
  obtain ⟨j, before, same⟩ := List.mem_take_iff_getElem.mp member
  exact absurd (List.getElem_inj distinct |>.mp same) (by omega)

theorem withInput_firstParts (distinct : q.inputs.Nodup) (inside : i < q.inputs.length) :
    (q.firstParts i outputs bounds equations relus).withInput q.inputs[i] =
      .ok (q.firstParts (i + 1) outputs bounds equations relus) := by
  have known := q.inputs_known _ (List.getElem_mem inside)
  simp [withInput, firstParts, known, notMem_take distinct inside, List.take_add_one]

theorem withOutput_firstParts (distinct : q.outputs.Nodup) (inside : i < q.outputs.length) :
    (q.firstParts inputs i bounds equations relus).withOutput q.outputs[i] =
      .ok (q.firstParts inputs (i + 1) bounds equations relus) := by
  have known := q.outputs_known _ (List.getElem_mem inside)
  simp [withOutput, firstParts, known, notMem_take distinct inside, List.take_add_one]

theorem withBounds_firstParts (inside : i < q.bounds.toList.length) :
    (q.firstParts inputs outputs i equations relus).withBounds i q.bounds.toList[i] =
      .ok (q.firstParts inputs outputs (i + 1) equations relus) := by
  have inside : i < q.size := by simpa using inside
  have placed : (Vector.ofFn fun j : Fin q.size => if j < i then q.bounds[j] else Interval.all).set i
      q.bounds[i] = Vector.ofFn fun j : Fin q.size => if j < i + 1 then q.bounds[j] else Interval.all := by
    ext j known
    rw [Vector.getElem_set]
    split
    next same => simp [same]
    next other =>
      have shift : j < i + 1 ↔ j < i := by omega
      simp only [Vector.getElem_ofFn, shift]
  rw [withBounds, withBoundsAt, dif_pos (show i < (q.firstParts inputs outputs i equations relus).size from inside)]
  simp only [firstParts, Fin.getElem_fin, Vector.getElem_toList] at placed ⊢
  rw [placed]

theorem withEquation_firstParts (inside : i < q.equations.length) :
    (q.firstParts inputs outputs bounds i relus).withEquation q.equations[i] =
      .ok (q.firstParts inputs outputs bounds (i + 1) relus) := by
  have known := q.equations_known _ (List.getElem_mem inside)
  unfold withEquation
  split
  next a found =>
    have beyond := List.find?_some found
    simp [firstParts, known a (List.mem_of_find?_eq_some found)] at beyond
  next => simp [firstParts, List.take_add_one]

theorem withRelu_firstParts (inside : i < q.relus.length) (apart : q.relus[i].b ≠ q.relus[i].f) :
    (q.firstParts inputs outputs bounds equations i).withRelu q.relus[i].b q.relus[i].f =
      .ok (q.firstParts inputs outputs bounds equations (i + 1)) := by
  have known := q.relus_known _ (List.getElem_mem inside)
  simp [withRelu, firstParts, known.1, known.2, apart, List.take_add_one]
  rw [List.getElem?_eq_getElem inside]
  rfl

end Query

theorem Equation.addTo_fresh {c : α} {v : Variable} {addends : List (Addend α)}
    (fresh : ∀ a ∈ addends, a.var ≠ v) (nonzero : (c == 0) = false) :
    addTo c v addends = addends ++ [⟨c, v⟩] := by
  induction addends with
  | nil => simp [addTo, nonzero]
  | cons first rest ih =>
    rw [addTo, if_neg (fresh first (by simp)), ih fun a member => fresh a (by simp [member])]
    rfl

namespace Reading

/-- A source whose next words spell the tokens. -/
def Spells (tokens : List (Token α)) (source : Source) : Prop :=
  ∃ words, List.Forall₂ Token.SpelledBy tokens words ∧ source.Offers words

section Words

variable {source : Source} {later : List (Token α)} {part : Section} {refusal : LoadError α → Prop}

theorem word_spelled {token : Token α} (spelled : Spells (token :: later) source) :
    Reads (word part : Reader α (List Char)) source
      (fun chars rest => token.SpelledBy chars ∧ Spells later rest) refusal := by
  obtain ⟨words, written, offers⟩ := spelled
  cases written with
  | cons same others =>
    obtain ⟨rest, next, offers⟩ := offers
    simp only [Reads, word, bind, StateT.bind, get, getThe, MonadStateOf.get, StateT.get,
      Except.bind, Pure.pure, Except.pure, next]
    exact ⟨same, _, others, offers⟩

theorem index_spelled {n : Nat} (spelled : Spells (.index n :: later) source) :
    Reads (index part) source (fun read rest => read = n ∧ Spells later rest) refusal := by
  refine (word_spelled spelled).bind fun chars rest ⟨same, spelled⟩ => ?_
  rw [show readIndex? chars = some n from same]
  exact .pure ⟨rfl, spelled⟩

theorem number_spelled {x : α} (spelled : Spells (.number x :: later) source) :
    Reads (number part) source (fun read rest => read = x ∧ Spells later rest) refusal := by
  refine (word_spelled spelled).bind fun chars rest ⟨⟨numeral, same, value⟩, spelled⟩ => ?_
  rw [same]
  exact .pure ⟨value, spelled⟩

theorem knownVariable_spelled {x : Variable} {size : Nat} (inside : x < size)
    (spelled : Spells (.index x :: later) source) :
    Reads (knownVariable size part) source (fun read rest => read = x ∧ Spells later rest)
      refusal := by
  refine (index_spelled spelled).bind fun read rest ⟨same, remaining⟩ => ?_
  rw [same, if_pos inside]
  exact .pure ⟨rfl, remaining⟩

theorem forEach_spelled {ι β : Type} {items : List ι} {tokens : ι → List (Token α)}
    {step : Nat → β → Reader α β} {start : β} {count : Nat} (counted : items.length = count)
    (parts : Nat → β) (begins : parts 0 = start)
    (spelled : Spells (items.flatMap tokens ++ later) source)
    (each : ∀ (i : Nat) (inside : i < items.length) (source : Source) (later : List (Token α)),
      Spells (tokens items[i] ++ later) source →
      Reads (step i (parts i)) source (fun next rest => next = parts (i + 1) ∧ Spells later rest)
        refusal) :
    Reads (forEach step count 0 start) source
      (fun last rest => last = parts count ∧ Spells later rest) refusal := by
  subst counted
  let property := fun i value rest =>
    value = parts i ∧ Spells ((items.drop i).flatMap tokens ++ later) rest
  have reads : Reads (forEach step items.length 0 start) source (property (0 + items.length))
      refusal := by
    refine .forEach property ⟨begins.symm, spelled⟩ fun i _ inside value rest ⟨same, spelled⟩ => ?_
    have inside : i < items.length := by omega
    rw [List.drop_eq_getElem_cons inside, List.flatMap_cons, List.append_assoc] at spelled
    exact same ▸ each i inside rest _ spelled
  refine reads.mono fun last rest ⟨same, spelled⟩ => ?_
  simp only [Nat.zero_add, List.drop_length, List.flatMap_nil, List.nil_append] at same spelled
  exact ⟨same, spelled⟩

theorem readEquation_spelled {size : Nat} {e : Equation α} (known : ∀ a ∈ e.addends, a.var < size)
    (distinct : (e.addends.map (·.var)).Nodup)
    (nonzero : ∀ a ∈ e.addends, (a.coefficient == 0) = false)
    (spelled : Spells (e.tokens ++ later) source) :
    Reads (readEquation size) source (fun read rest => read = e ∧ Spells later rest) refusal := by
  refine (index_spelled spelled).bind fun count between ⟨counted, spelled⟩ => ?_
  refine (number_spelled spelled).bind fun scalar between ⟨same, spelled⟩ => ?_
  subst counted same
  let parts := fun i => (⟨e.addends.take i, e.scalar⟩ : Equation α)
  suffices reads : Reads (forEach _ e.addends.length 0 (Equation.constant e.scalar)) between
      (fun last rest => last = parts e.addends.length ∧ Spells later rest) refusal from
    reads.mono fun last rest ⟨same, spelled⟩ => ⟨by simp [same, parts], spelled⟩
  refine forEach_spelled rfl parts rfl spelled fun i inside source later spelled => ?_
  refine (number_spelled spelled).bind fun coefficient between ⟨first, spelled⟩ => ?_
  have member := List.getElem_mem inside
  refine (knownVariable_spelled (known _ member) spelled).bind fun x rest ⟨second, spelled⟩ => ?_
  have fresh : ∀ a ∈ e.addends.take i, a.var ≠ e.addends[i].var := by
    intro a earlier same
    have new := Query.notMem_take distinct (i := i) (by simpa using inside)
    exact new (by simpa [← List.map_take] using ⟨a, earlier, same⟩)
  subst first second
  rw [Equation.add, Equation.addTo_fresh fresh (nonzero _ member), List.take_append_getElem]
  exact .pure ⟨rfl, spelled⟩

variable {q : Query α} {i inputs outputs bounds equations relus : Nat}

theorem input_spelled (plain : q.Plain) (inside : i < q.inputs.length)
    (spelled : Spells ([.index q.inputs[i]] ++ later) source) :
    Reads (do
        liftFault ((q.firstParts i outputs bounds equations relus).withInput
          (← knownVariable q.size .inputs))) source
      (fun next rest => next = q.firstParts (i + 1) outputs bounds equations relus ∧
        Spells later rest) refusal := by
  have known := q.inputs_known _ (List.getElem_mem inside)
  refine (knownVariable_spelled known spelled).bind fun x rest ⟨same, spelled⟩ => ?_
  exact same ▸ liftFault_reads (Query.withInput_firstParts plain.inputs inside) ⟨rfl, spelled⟩

theorem output_spelled (plain : q.Plain) (inside : i < q.outputs.length)
    (spelled : Spells ([.index q.outputs[i]] ++ later) source) :
    Reads (do
        liftFault ((q.firstParts inputs i bounds equations relus).withOutput
          (← knownVariable q.size .outputs))) source
      (fun next rest => next = q.firstParts inputs (i + 1) bounds equations relus ∧
        Spells later rest) refusal := by
  have known := q.outputs_known _ (List.getElem_mem inside)
  refine (knownVariable_spelled known spelled).bind fun x rest ⟨same, spelled⟩ => ?_
  exact same ▸ liftFault_reads (Query.withOutput_firstParts plain.outputs inside) ⟨rfl, spelled⟩

theorem bounds_spelled (plain : q.Plain) {validate : Bool} (inside : i < q.bounds.toList.length)
    (spelled : Spells (q.bounds.toList[i].tokens ++ later) source) :
    Reads (readBounds validate i (q.firstParts inputs outputs i equations relus)) source
      (fun next rest => next = q.firstParts inputs outputs (i + 1) equations relus ∧
        Spells later rest) refusal := by
  have ordered := plain.ordered _ (List.getElem_mem inside)
  refine (number_spelled spelled).bind fun lower between ⟨first, spelled⟩ => ?_
  refine (number_spelled spelled).bind fun upper rest ⟨second, spelled⟩ => ?_
  rw [first, second]
  simp only [ordered, decide_false, Bool.or_self, Bool.and_false, Bool.false_eq_true, if_false]
  exact liftFault_reads (Query.withBounds_firstParts inside) ⟨rfl, spelled⟩

theorem equation_spelled (plain : q.Plain) (inside : i < q.equations.length)
    (spelled : Spells (q.equations[i].tokens ++ later) source) :
    Reads (do
        liftFault ((q.firstParts inputs outputs bounds i relus).withEquation
          (← readEquation q.size))) source
      (fun next rest => next = q.firstParts inputs outputs bounds (i + 1) relus ∧
        Spells later rest) refusal := by
  have member := List.getElem_mem inside
  refine (readEquation_spelled (q.equations_known _ member) (plain.distinct _ member)
    (plain.nonzero _ member) spelled).bind fun e rest ⟨same, spelled⟩ => ?_
  exact same ▸ liftFault_reads (Query.withEquation_firstParts inside) ⟨rfl, spelled⟩

theorem relu_spelled (plain : q.Plain) (inside : i < q.relus.length)
    (spelled : Spells (q.relus[i].tokens ++ later) source) :
    Reads (do
        let b ← knownVariable q.size .relus
        let f ← knownVariable q.size .relus
        liftFault ((q.firstParts inputs outputs bounds equations i).withRelu b f)) source
      (fun next rest => next = q.firstParts inputs outputs bounds equations (i + 1) ∧
        Spells later rest) refusal := by
  have member := List.getElem_mem inside
  have known := q.relus_known _ member
  refine (knownVariable_spelled known.1 spelled).bind fun b between ⟨input, spelled⟩ => ?_
  refine (knownVariable_spelled known.2 spelled).bind fun f rest ⟨output, spelled⟩ => ?_
  rw [input, output]
  exact liftFault_reads (Query.withRelu_firstParts inside (plain.apart _ member)) ⟨rfl, spelled⟩

/-- Reading a query that was written down returns it. -/
theorem readQuery_spelled (plain : q.Plain) {validate : Bool} (spelled : Spells q.tokens source) :
    Reads (readQuery validate) source (fun read _ => read = { q with solution := none })
      refusal := by
  rw [← List.append_nil q.tokens] at spelled
  simp only [Query.tokens, List.append_assoc, List.cons_append] at spelled
  refine (index_spelled spelled).bind fun size rest ⟨sized, spelled⟩ => ?_
  refine (index_spelled spelled).bind fun equations rest ⟨equationCount, spelled⟩ => ?_
  refine (index_spelled spelled).bind fun relus rest ⟨reluCount, spelled⟩ => ?_
  refine (index_spelled spelled).bind fun inputs rest ⟨inputCount, spelled⟩ => ?_
  refine (index_spelled spelled).bind fun outputs rest ⟨outputCount, spelled⟩ => ?_
  subst sized equationCount reluCount inputCount outputCount
  rw [if_neg (Nat.not_lt.mpr plain.size)]
  refine (forEach_spelled rfl (fun i => q.firstParts i 0 0 0 0) Query.firstParts_none spelled
    fun _ inside _ _ => input_spelled plain inside).bind fun read rest ⟨same, spelled⟩ => ?_
  rw [same]
  refine (forEach_spelled rfl (fun i => q.firstParts _ i 0 0 0) rfl spelled
    fun _ inside _ _ => output_spelled plain inside).bind fun read rest ⟨same, spelled⟩ => ?_
  rw [same]
  refine (forEach_spelled q.bounds.length_toList (fun i => q.firstParts _ _ i 0 0) rfl spelled
    fun _ inside _ _ => bounds_spelled plain inside).bind fun read rest ⟨same, spelled⟩ => ?_
  rw [same]
  refine (forEach_spelled rfl (fun i => q.firstParts _ _ _ i 0) rfl spelled
    fun _ inside _ _ => equation_spelled plain inside).bind fun read rest ⟨same, spelled⟩ => ?_
  rw [same, ← Query.firstParts_all]
  exact (forEach_spelled rfl (fun i => q.firstParts _ _ _ _ i) rfl spelled
    fun _ inside _ _ => relu_spelled plain inside).mono fun _ _ ⟨same, _⟩ => same

end Words

/-- Loading returns the query that a text spells, whatever gaps stand between the words
and whether or not bounds are validated. -/
theorem load_layout {q : Query α} (plain : q.Plain) {words : List (List Char)}
    (written : List.Forall₂ Token.SpelledBy q.tokens words) {s : String}
    (layout : Layout words s.toList) (validate : Bool) :
    load (.ofString s) validate = .ok { q with solution := none } := by
  have spelled : Spells q.tokens (.ofString s) := ⟨words, written, Source.ofString_offers layout⟩
  have reads : Reads (readQuery validate) (.ofString s) _ fun _ => False :=
    readQuery_spelled plain spelled
  unfold Reads at reads
  cases run : (readQuery validate : Reader α (Query α)) (.ofString s) with
  | error => rw [run] at reads; exact reads.elim
  | ok result =>
    rw [run] at reads
    rw [load, StateT.run', run, ← reads]
    rfl

/-- `x1 = relu(x0)` and `2·x0 = 0` for an input `x0` in `[-1, 1]` and an output `x1 ≥ 0`. -/
private def zeroRelu : Query Extended where
  size := 2
  bounds := #v[⟨.finite (-1), .finite 1⟩, ⟨.finite 0, .infinity⟩]
  equations := [⟨[⟨.finite 2, 0⟩], .finite 0⟩]
  relus := [⟨0, 1⟩]
  inputs := [0]
  outputs := [1]
  solution := none
  equations_known := by decide
  relus_known := by decide
  inputs_known := by decide
  outputs_known := by decide

theorem load_layout_commented :
    load (.ofString "# f\n2 1 1 1 1\n0 1\t-1 +1.0 0 inf # x\n 1 0 2e0 0\n0 1#") true =
      .ok zeroRelu := by
  let words := ["2", "1", "1", "1", "1", "0", "1", "-1", "+1.0", "0", "inf", "1", "0", "2e0", "0",
    "0", "1"]
  have plain : zeroRelu.Plain := by constructor <;> decide +kernel
  have spelled : List.Forall₂ Token.SpelledBy zeroRelu.tokens (words.map String.toList) := by
    decide +kernel
  have layout : Layout (words.map String.toList)
      "# f\n2 1 1 1 1\n0 1\t-1 +1.0 0 inf # x\n 1 0 2e0 0\n0 1#".toList := by
    simp only [words, List.map_cons, List.map_nil, String.reduceToList]
    have first := @Gap.comment [' ', 'f'] [] (by decide) .empty
    have middle := Gap.blank (c := ' ') rfl
      (@Gap.comment [' ', 'x'] [' '] (by decide) (.blank rfl .empty))
    refine .word first (by decide) rfl rfl ?_
    iterate 10 refine .word (.blank rfl .empty) (by decide) rfl rfl ?_
    refine .word middle (by decide) rfl rfl ?_
    iterate 5 refine .word (.blank rfl .empty) (by decide) rfl rfl ?_
    exact @Layout.comment [] [] .empty (by decide)
  exact load_layout plain spelled layout true

end Reading

end ReluSolver
