import ReluSolver.Query.Split

/-!
The undo log of a bound store.

Each open checkpoint is a frame of entries, the latest first, and the innermost frame comes first.
Closing a checkpoint hands back its entries in the order in which they have to be undone.
-/

namespace ReluSolver

/-- What one side of a variable was before it was changed. -/
structure TrailEntry (α : Type) where
  var : Variable
  side : Side
  oldValue : α
  oldFlag : Bool

def TrailEntry.text {α : Type} [Scalar α] (e : TrailEntry α) : String :=
  s!"BoundTrailEntry(variable: {e.var.text}, kind: {e.side.text}, " ++
    s!"old_value: {Scalar.text e.oldValue}, old_flag: {e.oldFlag})"

structure Trail (α : Type) where
  frames : List (List (TrailEntry α))

namespace Trail

variable {α : Type}

def empty : Trail α := ⟨[]⟩

def depth (t : Trail α) : Nat := t.frames.length

def isEmpty (t : Trail α) : Bool := t.frames.isEmpty

/-- The number of entries in all frames. -/
def entryCount (t : Trail α) : Nat := t.frames.flatten.length

def push (t : Trail α) : Trail α := ⟨[] :: t.frames⟩

/-- Adds an entry to the innermost frame; without a frame there is nothing to undo later. -/
def record (t : Trail α) (e : TrailEntry α) : Trail α :=
  match t.frames with
  | [] => t
  | frame :: outer => ⟨(e :: frame) :: outer⟩

/-- The entries of the innermost frame, latest first, and the trail without it. -/
def pop? (t : Trail α) : Option (List (TrailEntry α) × Trail α) :=
  match t.frames with
  | [] => none
  | frame :: outer => some (frame, ⟨outer⟩)

def text (t : Trail α) : String := s!"BoundTrail(depth: {t.depth}, entries: {t.entryCount})"

@[simp] theorem depth_record (t : Trail α) (e : TrailEntry α) : (t.record e).depth = t.depth := by
  unfold record depth
  split <;> simp_all

end Trail

end ReluSolver
