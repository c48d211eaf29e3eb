import ReluSolver.Query.Equation

/-!
ReLU constraints `f = max(0, b)` between an input `b` and an output `f`.
-/

namespace ReluSolver

structure Relu where
  b : Variable
  f : Variable
deriving DecidableEq, Repr

namespace Relu

def make (b f : Variable) : Except Fault Relu :=
  if b = f then .error .reluOfItself else .ok ⟨b, f⟩

def participates (r : Relu) (var : Variable) : Bool :=
  r.b == var || r.f == var

/-- The output that belongs to the input value `b`. -/
def outputOf {α : Type} [Scalar α] (b : α) : α := Scalar.max b 0

def isSatisfied {α : Type} [Scalar α] (r : Relu) (values : Assignment α) (t : Tolerance α) :
    Except Fault Bool :=
  return t.areEqual (← fetch values r.f) (outputOf (← fetch values r.b))

/-- Renames the input, then the output. -/
def rename (r : Relu) (rename : Variable → Except Fault Variable) : Relu × Except Fault Unit :=
  match rename r.b with
  | .error fault => (r, .error fault)
  | .ok b =>
    match rename r.f with
    | .error fault => (⟨b, r.f⟩, .error fault)
    | .ok f => (⟨b, f⟩, .ok ())

/-- How the ReLU at a position is named. -/
def indexText (index : Nat) : String := s!"ReluIndex({index})"

def text (r : Relu) : String := s!"{r.f.text} = relu({r.b.text})"

end Relu

end ReluSolver
