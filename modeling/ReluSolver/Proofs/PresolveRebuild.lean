import ReluSolver.Proofs.EquationTerms
import ReluSolver.Proofs.QueryBuilding
import ReluSolver.Proofs.Steps
import ReluSolver.Proofs.VariableFates
import ReluSolver.Presolve.Simplify

/-! The query that is built over the kept variables: their bounds are those of the
draft, and its equations and ReLUs are the ones of the draft under the new names. -/

namespace ReluSolver

namespace Presolve

variable {α : Type}

theorem newIndex_eq_ok {m : VariableMap α} {v index : Variable} :
    newIndex m v = .ok index ↔ m.newIndex? v = some index := by
  unfold newIndex
  cases m.newIndex? v with
  | none => exact ⟨nofun, nofun⟩
  | some other => simp

section Stages

variable {d : Draft α} {built last : Query α}

/-- Placing the bounds of variables, one kept variable after the other. -/
theorem placeBounds_spec {vars : List Variable}
    (run : vars.foldlM (fun built v => do
      built.withBounds (← newIndex d.map v) (← d.store.interval v)) built = .ok last) :
    last.size = built.size ∧ last.equations = built.equations ∧ last.relus = built.relus ∧
      ∀ v ∈ vars, ∀ index, d.map.newIndex? v = some index →
        ∃ i, d.store.interval v = .ok i ∧ last.bounds[index]? = some i := by
  refine foldlM_induct (fun earlier last => last.size = built.size ∧
    last.equations = built.equations ∧ last.relus = built.relus ∧
      ∀ v ∈ earlier, ∀ index, d.map.newIndex? v = some index →
        ∃ i, d.store.interval v = .ok i ∧ last.bounds[index]? = some i)
    ⟨rfl, rfl, rfl, by simp⟩ ?_ run
  rintro earlier between v next ⟨size, equations, relus, bounds⟩ made
  obtain ⟨place, named, made⟩ := bind_eq_ok.mp made
  obtain ⟨interval, known, made⟩ := bind_eq_ok.mp made
  obtain ⟨size', equations', relus', -, bounds'⟩ := Query.withBounds_eq_ok made
  refine ⟨size'.trans size, equations'.trans equations, relus'.trans relus, ?_⟩
  intro u member index found
  by_cases same : u = v
  · subst same
    obtain rfl : place = index := Option.some.inj ((newIndex_eq_ok.mp named).symm.trans found)
    exact ⟨interval, known, by rw [bounds', if_pos rfl]⟩
  · have old : u ∈ earlier := by simpa [same] using member
    obtain ⟨i, held, placed⟩ := bounds u old index found
    refine ⟨i, held, ?_⟩
    rw [bounds', if_neg, placed]
    rintro rfl
    exact same (VariableMap.newIndex_injective found (newIndex_eq_ok.mp named))

theorem placeEquations_spec {equations : List (Equation α)} (empty : built.equations = [])
    (run : equations.foldlM (fun built e => do
      let (renamed, outcome) := e.rename (newIndex d.map)
      outcome
      built.withEquation renamed) built = .ok last) :
    built.SameBounds last ∧ last.relus = built.relus ∧
      List.Forall₂ (fun e renamed => e.rename (newIndex d.map) = (renamed, .ok ()))
        equations last.equations := by
  refine foldlM_induct (fun earlier last => built.SameBounds last ∧ last.relus = built.relus ∧
    List.Forall₂ (fun e renamed => e.rename (newIndex d.map) = (renamed, .ok ()))
      earlier last.equations) ⟨.refl built, rfl, by rw [empty]; exact .nil⟩ ?_ run
  rintro earlier between e next ⟨before, relus, equations⟩ made
  cases shape : e.rename (newIndex d.map) with
  | mk renamed outcome =>
    rw [shape] at made
    obtain ⟨_, rfl, made⟩ := bind_eq_ok.mp made
    obtain ⟨here, relus', equations'⟩ := Query.withEquation_eq_ok made
    refine ⟨before.trans here, relus'.trans relus, ?_⟩
    rw [equations']
    exact List.rel_append equations (.cons shape .nil)

theorem placeRelus_spec {relus : List Relu} (empty : built.relus = [])
    (run : relus.foldlM (fun built r => do
      built.withRelu (← newIndex d.map r.b) (← newIndex d.map r.f)) built = .ok last) :
    built.SameBounds last ∧ last.equations = built.equations ∧
      List.Forall₂ (fun r renamed => d.map.newIndex? r.b = some renamed.b ∧
        d.map.newIndex? r.f = some renamed.f) relus last.relus := by
  refine foldlM_induct (fun earlier last => built.SameBounds last ∧
    last.equations = built.equations ∧
      List.Forall₂ (fun r renamed => d.map.newIndex? r.b = some renamed.b ∧
        d.map.newIndex? r.f = some renamed.f) earlier last.relus)
    ⟨.refl built, rfl, by rw [empty]; exact .nil⟩ ?_ run
  rintro earlier between r next ⟨before, equations, relus⟩ made
  obtain ⟨b, namedB, made⟩ := bind_eq_ok.mp made
  obtain ⟨f, namedF, made⟩ := bind_eq_ok.mp made
  obtain ⟨here, equations', relus'⟩ := Query.withRelu_eq_ok made
  refine ⟨before.trans here, equations'.trans equations, ?_⟩
  rw [relus']
  exact List.rel_append relus (.cons ⟨newIndex_eq_ok.mp namedB, newIndex_eq_ok.mp namedF⟩ .nil)

theorem placeRoles_spec {place : Query α → Variable → Except Fault (Query α)}
    (kept : ∀ {built next : Query α} {v : Variable}, place built v = .ok next →
      built.SameBounds next ∧ next.equations = built.equations ∧ next.relus = built.relus)
    {vars : List Variable}
    (run : vars.foldlM (fun built v => do place built (← newIndex d.map v)) built = .ok last) :
    built.SameBounds last ∧ last.equations = built.equations ∧ last.relus = built.relus := by
  refine foldlM_induct (fun _ last => built.SameBounds last ∧ last.equations = built.equations ∧
    last.relus = built.relus) ⟨.refl built, rfl, rfl⟩ ?_ run
  rintro _ between v next ⟨before, equations, relus⟩ made
  obtain ⟨index, -, made⟩ := bind_eq_ok.mp made
  obtain ⟨here, equations', relus'⟩ := kept made
  exact ⟨before.trans here, equations'.trans equations, relus'.trans relus⟩

/-- Giving a role to some variables names them anew in their order, and leaves the other role. -/
theorem placeRoles_named {place : Query α → Variable → Except Fault (Query α)}
    {role other : Query α → List Variable}
    (placed : ∀ {built next : Query α} {v : Variable}, place built v = .ok next →
      role next = (if (role built).contains v then role built else role built ++ [v]) ∧
        other next = other built)
    {vars : List Variable} (distinct : vars.Nodup) (empty : role built = [])
    (run : vars.foldlM (fun built v => do place built (← newIndex d.map v)) built = .ok last) :
    List.Forall₂ (fun v index => d.map.newIndex? v = some index) vars (role last) ∧
      other last = other built := by
  have named := foldlM_induct (fun earlier last => other last = other built ∧ (earlier.Nodup →
    List.Forall₂ (fun v index => d.map.newIndex? v = some index) earlier (role last)))
    ⟨rfl, fun _ => by rw [empty]; exact .nil⟩ ?_ run
  · exact ⟨named.2 distinct, named.1⟩
  rintro earlier between v next ⟨same, paired⟩ made
  obtain ⟨index, found, made⟩ := bind_eq_ok.mp made
  obtain ⟨added, kept⟩ := placed made
  refine ⟨kept.trans same, fun distinct => ?_⟩
  obtain ⟨before, -, apart⟩ := List.nodup_append.mp distinct
  have absent : ¬ (role between).contains index = true := by
    intro present
    obtain ⟨u, inside, equal⟩ := forall₂_mem_right (paired before) (by simpa using present)
    exact apart u inside v (by simp) (VariableMap.newIndex_injective equal (newIndex_eq_ok.mp found))
  rw [added, if_neg absent]
  exact List.rel_append (paired before) (.cons (newIndex_eq_ok.mp found) .nil)

theorem roles_of_steps {β : Type} {f : Query α → β → Except Fault (Query α)} {items : List β}
    (kept : ∀ {built next : Query α} {item : β}, f built item = .ok next → built.SameRoles next)
    (run : items.foldlM f built = .ok last) : built.SameRoles last :=
  foldlM_induct (fun _ last => built.SameRoles last) (.refl built)
    (fun _ _ _ _ before made => before.trans (kept made)) run

theorem renameAddends_total {name : Variable → Except Fault Variable} {size : Nat}
    {addends : List (Addend α)} (named : ∀ a ∈ addends, ∃ i, name a.var = .ok i ∧ i < size) :
    ∃ renamed, Equation.renameAddends name addends = (renamed, .ok ()) ∧
      ∀ b ∈ renamed, b.var < size := by
  induction addends with
  | nil => exact ⟨[], rfl, nofun⟩
  | cons a rest ih =>
    obtain ⟨i, found, small⟩ := named a (by simp)
    obtain ⟨renamed, run, known⟩ := ih fun b member => named b (List.mem_cons_of_mem _ member)
    refine ⟨{ a with var := i } :: renamed, by rw [Equation.renameAddends, found, run], ?_⟩
    exact List.forall_mem_cons.mpr ⟨small, known⟩

variable (size : built.size = d.map.survivors.length)
include size

theorem newIndex_total {v : Variable} (kept : d.map.isKept v = true) :
    ∃ i, newIndex d.map v = .ok i ∧ i < built.size := by
  obtain ⟨i, found, small⟩ := VariableMap.newIndex_of_isKept kept
  exact ⟨i, newIndex_eq_ok.mpr found, size ▸ small⟩

theorem placeBounds_total {vars : List Variable} (kept : ∀ v ∈ vars, d.map.isKept v = true)
    (cells : ∀ v ∈ vars, ∃ i, d.store.interval v = .ok i) :
    ∃ last, (vars.foldlM (fun (built : Query α) v => do
      built.withBounds (← newIndex d.map v) (← d.store.interval v)) built) = .ok last ∧
      last.size = d.map.survivors.length := by
  refine foldlM_total size fun built v member size => ?_
  obtain ⟨i, found, small⟩ := newIndex_total size (kept v member)
  obtain ⟨interval, held⟩ := cells v member
  obtain ⟨next, made, same⟩ := Query.withBounds_total small interval
  exact ⟨next, bind_eq_ok.mpr ⟨i, found, bind_eq_ok.mpr ⟨interval, held, made⟩⟩, same.trans size⟩

theorem placeEquations_total {equations : List (Equation α)}
    (kept : ∀ e ∈ equations, ∀ a ∈ e.addends, d.map.isKept a.var = true) :
    ∃ last, (equations.foldlM (fun (built : Query α) e => do
      let (renamed, outcome) := e.rename (newIndex d.map)
      outcome
      built.withEquation renamed) built) = .ok last ∧ last.size = d.map.survivors.length := by
  refine foldlM_total size fun built e member size => ?_
  obtain ⟨addends, renamed, known⟩ := renameAddends_total fun a inside =>
    newIndex_total size (kept e member a inside)
  obtain ⟨next, made, same⟩ := Query.withEquation_total (e := { e with addends := addends }) known
  refine ⟨next, ?_, same.trans size⟩
  rw [Equation.rename, renamed]
  exact made

theorem placeRelus_total {relus : List Relu}
    (kept : ∀ r ∈ relus, d.map.isKept r.b = true ∧ d.map.isKept r.f = true ∧ r.b ≠ r.f) :
    ∃ last, (relus.foldlM (fun (built : Query α) r => do
      built.withRelu (← newIndex d.map r.b) (← newIndex d.map r.f)) built) = .ok last ∧
      last.size = d.map.survivors.length := by
  refine foldlM_total size fun built r member size => ?_
  obtain ⟨keptInput, keptOutput, apart⟩ := kept r member
  obtain ⟨b, input, smallInput⟩ := newIndex_total size keptInput
  obtain ⟨f, output, smallOutput⟩ := newIndex_total size keptOutput
  have renamedApart : b ≠ f := by
    rintro rfl
    exact apart (VariableMap.newIndex_injective (newIndex_eq_ok.mp input) (newIndex_eq_ok.mp output))
  obtain ⟨next, made, same⟩ := Query.withRelu_total smallInput smallOutput renamedApart
  exact ⟨next, bind_eq_ok.mpr ⟨b, input, bind_eq_ok.mpr ⟨f, output, made⟩⟩, same.trans size⟩

theorem placeRoles_total {place : Query α → Variable → Except Fault (Query α)}
    (total : ∀ {built : Query α} {v : Variable}, v < built.size →
      ∃ last, place built v = .ok last ∧ last.size = built.size)
    {vars : List Variable} (kept : ∀ v ∈ vars, d.map.isKept v = true) :
    ∃ last, (vars.foldlM (fun (built : Query α) v => do
      place built (← newIndex d.map v)) built) = .ok last ∧ last.size = d.map.survivors.length := by
  refine foldlM_total size fun built v member size => ?_
  obtain ⟨i, found, small⟩ := newIndex_total size (kept v member)
  obtain ⟨next, made, same⟩ := total small
  exact ⟨next, bind_eq_ok.mpr ⟨i, found, made⟩, same.trans size⟩

end Stages

variable [Scalar α]

/-- A query over the kept variables of a draft. -/
structure Rebuilt (q : Query α) (d : Draft α) (simplified : Query α) : Prop where
  size : simplified.size = d.map.survivors.length
  bounds : ∀ v index, d.map.newIndex? v = some index →
    ∃ i, d.store.interval v = .ok i ∧ simplified.bounds[index]? = some i
  equations : List.Forall₂ (fun e renamed => e.rename (newIndex d.map) = (renamed, .ok ()))
    d.equations simplified.equations
  relus : List.Forall₂ (fun r renamed => d.map.newIndex? r.b = some renamed.b ∧
    d.map.newIndex? r.f = some renamed.f) q.relus simplified.relus

theorem rebuild_rebuilt {q simplified : Query α} {d : Draft α}
    (run : rebuild q d = .ok simplified) : Rebuilt q d simplified := by
  unfold rebuild at run
  dsimp only at run
  obtain ⟨bounded, boundsRun, run⟩ := bind_eq_ok.mp run
  obtain ⟨related, equationsRun, run⟩ := bind_eq_ok.mp run
  obtain ⟨phased, relusRun, run⟩ := bind_eq_ok.mp run
  obtain ⟨entered, inputsRun, outputsRun⟩ := bind_eq_ok.mp run
  obtain ⟨size, noEquations, noRelus, bounds⟩ := placeBounds_spec boundsRun
  obtain ⟨first, relus, equations⟩ := placeEquations_spec noEquations equationsRun
  obtain ⟨second, sameEquations, phases⟩ := placeRelus_spec (relus.trans noRelus) relusRun
  obtain ⟨third, inputEquations, inputRelus⟩ := placeRoles_spec Query.withInput_eq_ok inputsRun
  obtain ⟨fourth, outputEquations, outputRelus⟩ := placeRoles_spec Query.withOutput_eq_ok outputsRun
  have last := ((first.trans second).trans third).trans fourth
  refine ⟨last.size.trans size, ?_, ?_, ?_⟩
  · intro v index found
    obtain ⟨inside, same⟩ := List.getElem?_eq_some_iff.mp (VariableMap.survivors_of_newIndex found).2
    obtain ⟨i, held, placed⟩ := bounds v (same ▸ List.getElem_mem inside) index found
    exact ⟨i, held, (last.bounds index).trans placed⟩
  · rw [outputEquations, inputEquations, sameEquations]
    exact equations
  · rw [outputRelus, inputRelus]
    exact phases

theorem rebuild_roles {q simplified : Query α} {d : Draft α} (inputs : q.inputs.Nodup)
    (outputs : q.outputs.Nodup) (run : rebuild q d = .ok simplified) :
    List.Forall₂ (fun v index => d.map.newIndex? v = some index) q.inputs simplified.inputs ∧
      List.Forall₂ (fun v index => d.map.newIndex? v = some index) q.outputs simplified.outputs := by
  unfold rebuild at run
  dsimp only at run
  obtain ⟨bounded, boundsRun, run⟩ := bind_eq_ok.mp run
  obtain ⟨related, equationsRun, run⟩ := bind_eq_ok.mp run
  obtain ⟨phased, relusRun, run⟩ := bind_eq_ok.mp run
  obtain ⟨entered, inputsRun, outputsRun⟩ := bind_eq_ok.mp run
  have first := roles_of_steps (fun made => by
    obtain ⟨_, -, made⟩ := bind_eq_ok.mp made
    obtain ⟨_, -, made⟩ := bind_eq_ok.mp made
    exact Query.withBounds_roles made) boundsRun
  have second := roles_of_steps (fun {_ _ e} made => by
    cases shape : e.rename (newIndex d.map)
    rw [shape] at made
    obtain ⟨_, -, made⟩ := bind_eq_ok.mp made
    exact Query.withEquation_roles made) equationsRun
  have third := roles_of_steps (fun made => by
    obtain ⟨_, -, made⟩ := bind_eq_ok.mp made
    obtain ⟨_, -, made⟩ := bind_eq_ok.mp made
    exact Query.withRelu_roles made) relusRun
  have blank := (first.trans second).trans third
  obtain ⟨named, others⟩ := placeRoles_named Query.withInput_roles inputs blank.inputs inputsRun
  obtain ⟨named', others'⟩ :=
    placeRoles_named Query.withOutput_roles outputs (others.trans blank.outputs) outputsRun
  exact ⟨others' ▸ named, named'⟩

/-- The query over the kept variables can be built if nothing else is mentioned. -/
theorem rebuild_total {q : Query α} {d : Draft α}
    (cells : ∀ v, d.map.isKept v = true → ∃ i, d.store.interval v = .ok i)
    (equations : ∀ e ∈ d.equations, ∀ a ∈ e.addends, d.map.isKept a.var = true)
    (relus : ∀ r ∈ q.relus, d.map.isKept r.b = true ∧ d.map.isKept r.f = true ∧ r.b ≠ r.f)
    (inputs : ∀ x ∈ q.inputs, d.map.isKept x = true)
    (outputs : ∀ x ∈ q.outputs, d.map.isKept x = true) :
    ∃ simplified, rebuild q d = .ok simplified := by
  have kept : ∀ v ∈ d.map.survivors, d.map.isKept v = true := fun v member =>
    (List.mem_filter.mp member).2
  have unconstrained : (Query.unconstrained d.map.survivors.length : Query α).size =
      d.map.survivors.length := rfl
  obtain ⟨bounded, boundsRun, size⟩ :=
    placeBounds_total unconstrained kept fun v member => cells v (kept v member)
  obtain ⟨related, equationsRun, size⟩ := placeEquations_total size equations
  obtain ⟨phased, relusRun, size⟩ := placeRelus_total size relus
  obtain ⟨entered, inputsRun, size⟩ := placeRoles_total size Query.withInput_total inputs
  obtain ⟨left, outputsRun, -⟩ := placeRoles_total size Query.withOutput_total outputs
  exact ⟨left, bind_eq_ok.mpr ⟨bounded, boundsRun, bind_eq_ok.mpr ⟨related, equationsRun,
    bind_eq_ok.mpr ⟨phased, relusRun, bind_eq_ok.mpr ⟨entered, inputsRun, outputsRun⟩⟩⟩⟩⟩

end Presolve

end ReluSolver
