import ReluSolver.Query.Builder

/-! The steps that build a query: what they change, and that one which names known
variables only is not refused. -/

namespace ReluSolver

namespace Query

variable {α : Type} {q last : Query α}

theorem withBounds_eq_ok {x : Variable} {bounds : Interval α} (run : q.withBounds x bounds = .ok last) :
    last.size = q.size ∧ last.equations = q.equations ∧ last.relus = q.relus ∧ x < q.size ∧
      ∀ i : Nat, last.bounds[i]? = if x = i then some bounds else q.bounds[i]? := by
  unfold withBounds withBoundsAt at run
  split at run
  next known =>
    rw [← Except.ok.inj run]
    refine ⟨rfl, rfl, rfl, known, fun i => ?_⟩
    dsimp only
    rw [Vector.getElem?_set]
  next => cases run

structure SameBounds (q last : Query α) : Prop where
  size : last.size = q.size
  bounds : ∀ i : Nat, last.bounds[i]? = q.bounds[i]?

namespace SameBounds

variable {middle : Query α}

theorem refl (q : Query α) : q.SameBounds q := ⟨rfl, fun _ => rfl⟩

theorem trans (first : q.SameBounds middle) (second : middle.SameBounds last) : q.SameBounds last :=
  ⟨second.size.trans first.size, fun i => (second.bounds i).trans (first.bounds i)⟩

end SameBounds

theorem withEquation_eq_ok {e : Equation α} (run : q.withEquation e = .ok last) :
    q.SameBounds last ∧ last.relus = q.relus ∧ last.equations = q.equations ++ [e] := by
  unfold withEquation at run
  split at run
  · cases run
  · rw [← Except.ok.inj run]
    exact ⟨⟨rfl, fun _ => rfl⟩, rfl, rfl⟩

theorem withRelu_eq_ok {b f : Variable} (run : q.withRelu b f = .ok last) :
    q.SameBounds last ∧ last.equations = q.equations ∧ last.relus = q.relus ++ [⟨b, f⟩] := by
  unfold withRelu at run
  split at run
  · split at run
    · split at run
      · cases run
      · rw [← Except.ok.inj run]
        exact ⟨⟨rfl, fun _ => rfl⟩, rfl, rfl⟩
    · cases run
  · cases run

theorem withInput_eq_ok {x : Variable} (run : q.withInput x = .ok last) :
    q.SameBounds last ∧ last.equations = q.equations ∧ last.relus = q.relus := by
  unfold withInput at run
  split at run
  · split at run <;> rw [← Except.ok.inj run] <;> exact ⟨⟨rfl, fun _ => rfl⟩, rfl, rfl⟩
  · cases run

theorem withOutput_eq_ok {x : Variable} (run : q.withOutput x = .ok last) :
    q.SameBounds last ∧ last.equations = q.equations ∧ last.relus = q.relus := by
  unfold withOutput at run
  split at run
  · split at run <;> rw [← Except.ok.inj run] <;> exact ⟨⟨rfl, fun _ => rfl⟩, rfl, rfl⟩
  · cases run

structure SameRoles (q last : Query α) : Prop where
  inputs : last.inputs = q.inputs
  outputs : last.outputs = q.outputs

namespace SameRoles

variable {middle : Query α}

theorem refl (q : Query α) : q.SameRoles q := ⟨rfl, rfl⟩

theorem trans (first : q.SameRoles middle) (second : middle.SameRoles last) : q.SameRoles last :=
  ⟨second.inputs.trans first.inputs, second.outputs.trans first.outputs⟩

end SameRoles

theorem withBounds_roles {x : Variable} {bounds : Interval α} (run : q.withBounds x bounds = .ok last) :
    q.SameRoles last := by
  unfold withBounds withBoundsAt at run
  split at run
  · exact Except.ok.inj run ▸ ⟨rfl, rfl⟩
  · cases run

theorem withEquation_roles {e : Equation α} (run : q.withEquation e = .ok last) : q.SameRoles last := by
  unfold withEquation at run
  split at run
  · cases run
  · exact Except.ok.inj run ▸ ⟨rfl, rfl⟩

theorem withRelu_roles {b f : Variable} (run : q.withRelu b f = .ok last) : q.SameRoles last := by
  unfold withRelu at run
  split at run
  · split at run
    · split at run
      · cases run
      · exact Except.ok.inj run ▸ ⟨rfl, rfl⟩
    · cases run
  · cases run

theorem withInput_roles {x : Variable} (run : q.withInput x = .ok last) :
    last.inputs = (if q.inputs.contains x then q.inputs else q.inputs ++ [x]) ∧
      last.outputs = q.outputs := by
  unfold withInput at run
  split at run
  · split at run
    next named => exact Except.ok.inj run ▸ ⟨(if_pos named).symm, rfl⟩
    next unnamed => exact Except.ok.inj run ▸ ⟨(if_neg unnamed).symm, rfl⟩
  · cases run

theorem withOutput_roles {x : Variable} (run : q.withOutput x = .ok last) :
    last.outputs = (if q.outputs.contains x then q.outputs else q.outputs ++ [x]) ∧
      last.inputs = q.inputs := by
  unfold withOutput at run
  split at run
  · split at run
    next named => exact Except.ok.inj run ▸ ⟨(if_pos named).symm, rfl⟩
    next unnamed => exact Except.ok.inj run ▸ ⟨(if_neg unnamed).symm, rfl⟩
  · cases run

theorem withBounds_total {x : Variable} (known : x < q.size) (bounds : Interval α) :
    ∃ last, q.withBounds x bounds = .ok last ∧ last.size = q.size := by
  rw [withBounds, withBoundsAt, dif_pos known]
  exact ⟨_, rfl, rfl⟩

theorem withEquation_total {e : Equation α} (known : ∀ a ∈ e.addends, a.var < q.size) :
    ∃ last, q.withEquation e = .ok last ∧ last.size = q.size := by
  unfold withEquation
  split
  next a found =>
    have beyond := List.find?_some found
    simp [known a (List.mem_of_find?_eq_some found)] at beyond
  next => exact ⟨_, rfl, rfl⟩

theorem withRelu_total {b f : Variable} (input : b < q.size) (output : f < q.size)
    (apart : b ≠ f) : ∃ last, q.withRelu b f = .ok last ∧ last.size = q.size := by
  rw [withRelu, dif_pos input, dif_pos output, if_neg apart]
  exact ⟨_, rfl, rfl⟩

theorem withInput_total {x : Variable} (known : x < q.size) :
    ∃ last, q.withInput x = .ok last ∧ last.size = q.size := by
  rw [withInput, dif_pos known]
  split <;> exact ⟨_, rfl, rfl⟩

theorem withOutput_total {x : Variable} (known : x < q.size) :
    ∃ last, q.withOutput x = .ok last ∧ last.size = q.size := by
  rw [withOutput, dif_pos known]
  split <;> exact ⟨_, rfl, rfl⟩

end Query

end ReluSolver
