import ReluSolver.Duration
import ReluSolver.Search.Engine

/-!
Subqueries: regions that wait to be decided.

The id of a subquery is its path in the tree of divisions, such as `3-2-4` for the fourth child of
the second child of the third region of the initial division.
-/

namespace ReluSolver

structure Subquery (α : Type) where
  id : String
  split : CaseSplit α
  /-- The time a worker may spend on it; zero is unbounded. -/
  timeout : Duration
  /-- The number of divisions that led to it. -/
  depth : Nat
  /-- Where a search of it may start from. -/
  state : Option (TreeState α)

namespace Subquery

variable {α : Type}

/-- The id of a child, counted from one. -/
def childId (parent : String) (index : Nat) : String :=
  if parent.isEmpty then Nat.repr index else parent ++ "-" ++ Nat.repr index

/-- The subqueries of the parts of a region. -/
def ofParts (parent : String) (depth : Nat) (timeout : Duration) (parts : List (CaseSplit α)) :
    List (Subquery α) :=
  parts.mapIdx fun i split => ⟨childId parent (i + 1), split, timeout, depth, none⟩

def withTimeout (s : Subquery α) (timeout : Duration) : Subquery α := { s with timeout := timeout }

def withState (s : Subquery α) (state : Option (TreeState α)) : Subquery α :=
  { s with state := state }

def text [Scalar α] (s : Subquery α) : String :=
  s!"SubQuery(id: {s.id}, depth: {s.depth}, timeout: {s.timeout.text}, split: {s.split.text})"

end Subquery

/-- The subqueries that wait for a worker, in the order in which they were put there. -/
structure WorkQueue (α : Type) where
  waiting : List (Subquery α)

namespace WorkQueue

variable {α : Type}

def empty : WorkQueue α := ⟨[]⟩

def size (q : WorkQueue α) : Nat := q.waiting.length

def isEmpty (q : WorkQueue α) : Bool := q.waiting.isEmpty

def extend (q : WorkQueue α) (subqueries : List (Subquery α)) : WorkQueue α :=
  ⟨q.waiting ++ subqueries⟩

def push (q : WorkQueue α) (subquery : Subquery α) : WorkQueue α := q.extend [subquery]

/-- The subquery that has been waiting for longest, and the others. -/
def pop? (q : WorkQueue α) : Option (Subquery α × WorkQueue α) :=
  match q.waiting with
  | [] => none
  | first :: rest => some (first, ⟨rest⟩)

end WorkQueue

end ReluSolver
