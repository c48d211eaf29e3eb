/-!
Choosing the best entry of a list.
-/

namespace ReluSolver

/-- The first entry that no later one is better than, when each entry is compared with the best one
before it. -/
def firstBest? {β : Type} (better : β → β → Bool) : List β → Option β
  | [] => none
  | x :: rest => some (rest.foldl (fun best y => if better y best then y else best) x)

end ReluSolver
