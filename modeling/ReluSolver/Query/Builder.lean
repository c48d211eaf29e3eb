import ReluSolver.Query.Basic

/-!
Building a query step by step. Every step refuses a variable that the query does not have, so what
it returns mentions known variables only.
-/

namespace ReluSolver.Query

variable {α : Type} [Scalar α]

private def refuse (q : Query α) (access : Access) (x : Variable) : Fault :=
  .variableOutOfRange access q.size x

/-- Replaces the bounds of one variable. -/
def withBoundsAt (q : Query α) (access : Access) (x : Variable)
    (change : Interval α → Interval α) : Except Fault (Query α) :=
  if h : x < q.size then
    .ok { q with bounds := q.bounds.set x (change q.bounds[x]) }
  else
    .error (refuse q access x)

def withBounds (q : Query α) (x : Variable) (bounds : Interval α) : Except Fault (Query α) :=
  q.withBoundsAt .buildBounds x fun _ => bounds

def withLower (q : Query α) (x : Variable) (value : α) : Except Fault (Query α) :=
  q.withBoundsAt .buildLower x fun bounds => { bounds with lower := value }

def withUpper (q : Query α) (x : Variable) (value : α) : Except Fault (Query α) :=
  q.withBoundsAt .buildUpper x fun bounds => { bounds with upper := value }

def withEquation (q : Query α) (e : Equation α) : Except Fault (Query α) :=
  match h : e.addends.find? (fun a => !decide (a.var < q.size)) with
  | some a => .error (refuse q .buildEquation a.var)
  | none =>
    .ok { q with
      equations := q.equations ++ [e]
      equations_known := by
        intro other member a inside
        rcases List.mem_append.mp member with old | new
        · exact q.equations_known other old a inside
        · rw [List.mem_singleton.mp new] at inside
          simpa using List.find?_eq_none.mp h a inside }

def withRelu (q : Query α) (b f : Variable) : Except Fault (Query α) :=
  if hb : b < q.size then
    if hf : f < q.size then
      if b = f then
        .error .reluOfItself
      else
        .ok { q with
          relus := q.relus ++ [⟨b, f⟩]
          relus_known := by
            intro r member
            rcases List.mem_append.mp member with old | new
            · exact q.relus_known r old
            · rw [List.mem_singleton.mp new]
              exact ⟨hb, hf⟩ }
    else
      .error (refuse q .buildRelu f)
  else
    .error (refuse q .buildRelu b)

/-- Marks an input; marking it again changes nothing. -/
def withInput (q : Query α) (x : Variable) : Except Fault (Query α) :=
  if h : x < q.size then
    if q.inputs.contains x then
      .ok q
    else
      .ok { q with
        inputs := q.inputs ++ [x]
        inputs_known := by
          intro y member
          rcases List.mem_append.mp member with old | new
          · exact q.inputs_known y old
          · exact List.mem_singleton.mp new ▸ h }
  else
    .error (refuse q .buildInput x)

/-- Marks an output; marking it again changes nothing. -/
def withOutput (q : Query α) (x : Variable) : Except Fault (Query α) :=
  if h : x < q.size then
    if q.outputs.contains x then
      .ok q
    else
      .ok { q with
        outputs := q.outputs ++ [x]
        outputs_known := by
          intro y member
          rcases List.mem_append.mp member with old | new
          · exact q.outputs_known y old
          · exact List.mem_singleton.mp new ▸ h }
  else
    .error (refuse q .buildOutput x)

end ReluSolver.Query
