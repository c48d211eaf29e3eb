import ReluSolver.Search.Candidate

/-!
Exchanging basic variables by tables: the basic variables in order, a mark at every variable that is
basic, and one buffer for all the columns that are solved for.
-/

namespace ReluSolver

structure ExchangeTables (α : Type) where
  basic : Array Variable
  isBasic : Array Bool
  buffer : Array α

/-- Enters an exchange into the tables, one after the other. -/
def ExchangeTables.exchange {α : Type} (tables : ExchangeTables α) (k : Nat) (entering : Variable) :
    Except Fault (ExchangeTables α) := do
  let unmarked ← replace tables.isBasic (← fetch tables.basic k) false
  let marked ← replace unmarked entering true
  return { tables with basic := ← replace tables.basic k entering, isBasic := marked }

namespace Problem

open Searching

variable {α : Type} [Scalar α] (p : Problem α)

def freshTables : ExchangeTables α where
  basic := p.basis.basic.toArray
  isBasic := p.basis.basic.foldl (·.setIfInBounds · true) (Array.replicate p.query.size false)
  buffer := Array.replicate p.basis.dimension 0

/-- Solves for the column of a variable. The buffer holds the column itself if there is no solution,
and what it held before if the lengths do not fit. -/
def solveInto (f : Factorization α) (x : Variable) (buffer : Array α) : Bool × Array α :=
  let column := (p.basis.column x).toArray
  match f.forward column buffer.size with
  | .ok solved => (true, solved)
  | .error (.singular _) => (false, column)
  | .error _ => (false, buffer)

/-- `findEntering` with the marks, which leaves in the buffer what was solved for last. -/
def searchEntering (f : Factorization α) (s : Store α) (k : Nat) :
    (attempts : Nat) → List Variable → ExchangeTables α →
      Except Fault (Option Variable × Nat × ExchangeTables α)
  | attempts, [], tables => return (none, attempts, tables)
  | attempts, x :: rest, tables => do
    if (← fetch tables.isBasic x) || (← s.isFixed x) then
      searchEntering f s k attempts rest tables
    else
      match attempts with
      | 0 => return (none, 0, tables)
      | left + 1 =>
        let (solved, buffer) := p.solveInto f x tables.buffer
        let tables := { tables with buffer := buffer }
        if !solved then searchEntering f s k left rest tables
        else if leastExchange ≤ Scalar.abs (← fetch buffer k) then return (some x, left, tables)
        else searchEntering f s k left rest tables

/-- `exchangeAt`, where each exchange is entered into all the tables. -/
def exchangeByTables :
    (attempts : Nat) → (positions : List Nat) → ExchangeTables α → Searching α (ExchangeTables α)
  | _, [], tables => return tables
  | 0, _, tables => return tables
  | attempts + 1, k :: rest, tables => do
    let s ← get
    let x ← ofFault (fetch tables.basic k)
    match s.factorization with
    | none => return tables
    | some f =>
      if ← observe (·.isFixed x) then
        let (found, left, tables) ←
          ofFault (p.searchEntering f s.store k (attempts + 1) p.basis.nonBasic tables)
        match found with
        | none => exchangeByTables left rest tables
        | some entering =>
          match f.push k tables.buffer with
          | .ok exchanged =>
            set { s with factorization := some exchanged }
            exchangeByTables left rest (← ofFault (tables.exchange k entering))
          | .error (.singular _) => exchangeByTables left rest tables
          | .error cause => throw (.failure (.factorization cause))
      else
        exchangeByTables (attempts + 1) rest tables

/-- `exchangeFixed` by tables. -/
def exchangeFixedByTables : Searching α (ExchangeTables α) :=
  p.exchangeByTables p.config.candidatePivots (List.range p.basis.dimension) p.freshTables

/-- `remainder` for the variables that are not marked. -/
def unmarkedRemainder (isBasic : Array Bool) (values : Assignment α) (e : Equation α) :
    Except Fault α := do
  let others ← e.addends.filterM fun a => return !(← fetch isBasic a.var)
  let products ← others.mapM fun a => return a.coefficient * (← fetch values a.var)
  return e.scalar - Scalar.sum products

/-- `solveBasics` by tables. -/
def solveByTables (tables : ExchangeTables α) (values : Assignment α) : Searching α (Assignment α) := do
  match (← get).factorization with
  | none => return values
  | some f =>
    if tables.basic.isEmpty then return values
    let right ← ofFault
      (p.basis.rows.mapM fun row => unmarkedRemainder tables.isBasic values row.equation)
    let solved ← ofFactor (f.forward right.toArray tables.basic.size)
    ofFault ((List.zip tables.basic.toList solved.toList).foldlM (fun values (x, value) =>
      replace values x value) values)

end Problem

end ReluSolver
