import ReluSolver.Duration

/-!
What a search counts.
-/

namespace ReluSolver

structure SearchStatistics where
  nodes : Nat
  conflicts : Nat
  /-- The bounds derived by propagation. -/
  propagated : Nat
  /-- The candidate assignments that were checked. -/
  candidates : Nat
  /-- The leaves with all phases fixed at which no candidate was a solution. -/
  inconclusive : Nat
  maxDepth : Nat
  duration : Duration
deriving DecidableEq, Repr

namespace SearchStatistics

def zero : SearchStatistics := ⟨0, 0, 0, 0, 0, 0, .zero⟩

def text (s : SearchStatistics) : String :=
  let seconds := Double.fixed s.duration.toSeconds 3
  String.join [
    "Search Statistics:\n",
    s!"  Nodes: {s.nodes}\n",
    s!"  Conflicts: {s.conflicts}\n",
    s!"  Propagated Bounds: {s.propagated}\n",
    s!"  Candidates: {s.candidates}\n",
    s!"  Inconclusive Leaves: {s.inconclusive}\n",
    s!"  Max Depth: {s.maxDepth}\n",
    s!"  Solve Duration (secs): {seconds}\n"]

end SearchStatistics

end ReluSolver
