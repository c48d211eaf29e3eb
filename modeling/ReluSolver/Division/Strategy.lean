/-!
How a region is divided.
-/

namespace ReluSolver

inductive DivideStrategy where
  /-- One of the other two, chosen by the number of inputs. -/
  | auto
  /-- Bisect the input with the widest interval. -/
  | largestInterval
  /-- Split by the phase of the ReLU whose input is most balanced around zero. -/
  | polarity
deriving DecidableEq, Repr

namespace DivideStrategy

def text : DivideStrategy → String
  | auto => "auto"
  | largestInterval => "largest-interval"
  | polarity => "polarity"

/-- Reads a strategy by its name, in any case. -/
def ofText? (s : String) : Option DivideStrategy :=
  match s.toLower with
  | "auto" => some auto
  | "largest-interval" | "largest_interval" => some largestInterval
  | "polarity" => some polarity
  | _ => none

/-- The message for a name that no strategy has. -/
def unknownMessage (s : String) : String :=
  s!"unknown divide strategy `{s}`, expected `auto`, `largest-interval` or `polarity`"

/-- Chooses for a query with so many inputs: below the threshold intervals are bisected. -/
def resolve (strategy : DivideStrategy) (inputs threshold : Nat) : DivideStrategy :=
  match strategy with
  | auto => if inputs < threshold then largestInterval else polarity
  | chosen => chosen

end DivideStrategy

end ReluSolver
