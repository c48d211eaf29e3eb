import ReluSolver.Search.Session

/-!
Guessing a solution within the current bounds.

The non-basic variables are given values inside their intervals, and the basis equations then
determine the basic ones. ReLUs that come out wrong are repaired a few times. What is left is a
candidate, and it counts only if it satisfies the whole query.
-/

namespace ReluSolver.Problem

open Searching

variable {α : Type} [Scalar α] (p : Problem α)

/-- The least magnitude of an entry that a basic variable is exchanged on. -/
def leastExchange : α := 1e-6

/-- The basis equations' way to express a variable by the basic ones, if its entry for basic
variable `k` is large enough. -/
def exchangeColumn? (f : Factorization α) (k : Nat) (x : Variable) :
    Except Fault (Option (Array α)) := do
  match f.forward (p.basis.column x).toArray p.basis.dimension with
  | .error _ => return none
  | .ok column =>
    return if leastExchange ≤ Scalar.abs (← fetch column k) then some column else none

/-- Looks for a variable to take the place of basic variable `k`: one that is neither basic nor
fixed. At most `attempts` are looked at; how many are left is given back. -/
def findEntering (f : Factorization α) (s : Store α) (basic : Array Variable) (k : Nat) :
    (attempts : Nat) → List Variable → Except Fault (Option (Variable × Array α) × Nat)
  | attempts, [] => return (none, attempts)
  | attempts, x :: rest => do
    if basic.contains x || (← s.isFixed x) then
      findEntering f s basic k attempts rest
    else
      match attempts with
      | 0 => return (none, 0)
      | left + 1 =>
        match ← p.exchangeColumn? f k x with
        | some column => return (some (x, column), left)
        | none => findEntering f s basic k left rest

/-- Exchanges the fixed ones of the basic variables at some positions for variables that are not
fixed, so that a fixed variable is given its value directly. -/
def exchangeAt (basic : Array Variable) :
    (attempts : Nat) → (positions : List Nat) → Searching α (Array Variable)
  | _, [] => return basic
  | 0, _ => return basic
  | attempts + 1, k :: rest => do
    let s ← get
    let x ← ofFault (fetch basic k)
    match s.factorization with
    | none => return basic
    | some f =>
      if ← observe (·.isFixed x) then
        let (found, left) ←
          ofFault (p.findEntering f s.store basic k (attempts + 1) p.basis.nonBasic)
        match found with
        | none => exchangeAt basic left rest
        | some (entering, column) =>
          match f.push k column with
          | .ok exchanged =>
            set { s with factorization := some exchanged }
            exchangeAt (← ofFault (replace basic k entering)) left rest
          | .error (.singular _) => exchangeAt basic left rest
          | .error cause => throw (.failure (.factorization cause))
      else
        exchangeAt basic (attempts + 1) rest

/-- The basic variables after as many exchanges as pay off. -/
def exchangeFixed : Searching α (Array Variable) :=
  p.exchangeAt p.basis.basic.toArray p.config.candidatePivots (List.range p.basis.dimension)

/-- What a basis equation leaves for the basic variables. -/
def remainder (basic : Array Variable) (values : Assignment α) (e : Equation α) :
    Except Fault α := do
  let others := e.addends.filter fun a => !basic.contains a.var
  let products ← others.mapM fun a => return a.coefficient * (← fetch values a.var)
  return e.scalar - Scalar.sum products

/-- Gives the basic variables the values that satisfy the basis equations. -/
def solveBasics (basic : Array Variable) (values : Assignment α) :
    Searching α (Assignment α) := do
  match (← get).factorization with
  | none => return values
  | some f =>
    if basic.isEmpty then return values
    let right ← ofFault (p.basis.rows.mapM fun row => remainder basic values row.equation)
    let solved ← ofFactor (f.forward right.toArray basic.size)
    ofFault ((List.zip basic.toList solved.toList).foldlM (fun values (x, value) =>
      replace values x value) values)

/-- Corrects one ReLU through a variable that is not basic, if that is possible. -/
def repairRelu (basic : Array Variable) (values : Assignment α) (r : Relu) :
    Except Fault (Option (Assignment α)) := do
  let t := p.effort.tolerance
  let b ← fetch values r.b
  let f ← fetch values r.f
  let expected := Relu.outputOf b
  if t.areEqual f expected then return none
  else if !basic.contains r.f then return some (← replace values r.f expected)
  else if basic.contains r.b then return none
  else if t.isPositive f then return some (← replace values r.b f)
  else if t.isZero f && decide (0 < b) then return some (← replace values r.b 0)
  else return none

/-- Corrects the ReLUs in order; `none` if nothing had to change, or could. -/
def repairRelus (basic : Array Variable) (values : Assignment α) :
    List Relu → Except Fault (Option (Assignment α))
  | [] => return none
  | r :: rest => do
    match ← p.repairRelu basic values r with
    | none => repairRelus basic values rest
    | some repaired => return some ((← repairRelus basic repaired rest).getD repaired)

/-- Solves for the basic variables and corrects the ReLUs in turn. -/
def repairFor (basic : Array Variable) :
    (rounds : Nat) → Assignment α → Searching α (Assignment α)
  | 0, values => return values
  | rounds + 1, values => do
    let solved ← p.solveBasics basic values
    match ← ofFault (p.repairRelus basic solved p.query.relus) with
    | none => return solved
    | some repaired => repairFor basic rounds repaired

/-- Gives values to variables, in order. -/
def assignEach (pick : Interval α → Searching α α) :
    List Variable → Assignment α → Searching α (Assignment α)
  | [], values => return values
  | x :: rest, values => do
    let value ← pick (← observe (·.interval x))
    assignEach pick rest (← ofFault (replace values x value))

/-- Whether every value is within the bounds of its variable. -/
def isWithin (t : Tolerance α) (s : Store α) (values : Assignment α) : Bool :=
  (List.zip values.toList s.cells.toList).all fun (value, c) =>
    t.within value c.bounds.lower c.bounds.upper

/-- Makes a candidate, whose non-basic values are picked from their intervals, and checks it. The
second result is the candidate, the first whether it is a solution. -/
def tryCandidate (basic : Array Variable) (pick : Interval α → Searching α α)
    (values : Assignment α) : Searching α (Bool × Assignment α) := do
  let free := p.query.allVariables.filter fun x => !basic.contains x
  let picked ← assignEach pick free values
  let repaired ← p.repairFor basic p.config.repairRounds picked
  let candidate ← p.solveBasics basic repaired
  count fun n => { n with candidates := n.candidates + 1 }
  let t := p.effort.tolerance
  if isWithin t (← get).store candidate then
    return (← ofFault (p.query.isSatisfiedBy candidate t), candidate)
  return (false, candidate)

/-- Tries candidates with random values, a number of times. -/
def tryRandom (basic : Array Variable) :
    (attempts : Nat) → Assignment α → Searching α (Option (Assignment α))
  | 0, _ => return none
  | attempts + 1, values => do
    let (isSolution, candidate) ← p.tryCandidate basic (fun i => draw (·.sample i)) values
    if isSolution then return some candidate
    tryRandom basic attempts candidate

/-- Tries the middle of all intervals, and then random values. -/
def tryCandidates : Searching α (Option (Assignment α)) := do
  let basic ← p.exchangeFixed
  let (isSolution, candidate) ←
    p.tryCandidate basic (fun i => return i.midpoint) (Array.replicate p.query.size 0)
  if isSolution then return some candidate
  p.tryRandom basic p.config.randomCandidates candidate

/-- Looks for a solution within the current bounds. The exchanges made on the way are taken back;
where the basis could not be factorized there is nothing to try. -/
def findSolution : Searching α (Option (Assignment α)) := fun s =>
  if s.factorization.isNone && p.basis.dimension != 0 then .ok none s
  else
    match p.tryCandidates s with
    | .ok found t => .ok found { t with factorization := s.factorization }
    | .error (.failure cause) t =>
      .error (.failure cause) { t with factorization := s.factorization }
    | .error (.fault cause) t => .error (.fault cause) t

end ReluSolver.Problem
