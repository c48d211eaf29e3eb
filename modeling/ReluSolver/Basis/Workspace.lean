import ReluSolver.Basis.Factorization

/-!
Several factorized bases that are worked on in place, by calls any of which may fail.
-/

namespace ReluSolver

/-- A change of a part, as a change of the whole around it. -/
def Changing.within {σ τ : Type} (wrap : σ → τ) (change : Changing σ Unit) (part : σ) :
    EStateM.Result FactorError τ Unit :=
  match change part with
  | .ok _ next => .ok () (wrap next)
  | .error cause left => .error cause (wrap left)

variable {α : Type} [Scalar α]

/-- The change that is made of a basis of either kind. -/
def Factored.change {m : Nat} (ofChain : Changing (EtaFile α m) Unit)
    (ofDense : Changing (DenseBasis α m) Unit) : Changing (Factored α m) Unit
  | etaFile f => ofChain.within etaFile f
  | dense f => ofDense.within dense f

namespace Factorization

/-- A change of the factorized basis, after a check of what is asked for. -/
def change (checked : (f : Factorization α) →
    Except FactorError (Changing (Factored α f.dimension) Unit)) : Changing (Factorization α) Unit :=
  fun f => match checked f with
  | .ok change => change.within (⟨f.dimension, ·⟩) f.factored
  | .error cause => .error cause f

/-- `setBasis` in place. -/
def writeBasis (entries : Array α) : Changing (Factorization α) Unit :=
  change fun f => do
    let basis ← Square.ofFlat f.dimension entries
    return Factored.change (EtaFile.renew basis) (DenseBasis.renew basis)

/-- `push` in place. -/
def exchange (p : Nat) (column : Array α) : Changing (Factorization α) Unit :=
  change fun f => do
    let column ← toVector f.dimension column
    let eta ← Eta.make p column f.factored.config.pivotTolerance
    return Factored.change (EtaFile.exchange eta) do
      DenseBasis.renew (eta.multiply (← get).basis)

/-- `refactorize` in place. -/
def renew : Changing (Factorization α) Unit :=
  change fun _ => .ok (Factored.change (do EtaFile.renew (← get).materialize) (pure ()))

/-- `makeExplicit` in place. -/
def writeExplicit : Changing (Factorization α) Unit :=
  change fun _ => .ok (Factored.change
    (do if (← get).explicit.isNone then EtaFile.renew (← get).materialize) (pure ()))

end Factorization

/-- Factorized bases, known by their places, and a buffer for an inverse. -/
structure Workspace (α : Type) where
  bases : List (Factorization α)
  buffer : Array α

/-- A call of an operation. One that is for a place without a basis is passed over. -/
inductive Call (α : Type) where
  | setBasis (target : Nat) (entries : Array α)
  | push (target pivot : Nat) (column : Array α)
  | refactorize (target : Nat)
  | makeExplicit (target : Nat)
  | toggle (target : Nat) (enabled : Bool)
  | clone (source : Nat)
  | store (source target : Nat)
  | restore (target source : Nat)
  | invert (source : Nat)

namespace Workspace

/-- Changes one of the bases in place. -/
def change (place : Nat) (change : Changing (Factorization α) Unit) : Changing (Workspace α) Unit :=
  fun w => match w.bases[place]? with
  | some f => change.within (fun f => { w with bases := w.bases.set place f }) f
  | none => .ok () w

/-- Replaces one of the bases by what an operation makes of it. -/
def altered (w : Workspace α) (place : Nat)
    (operation : Factorization α → Except FactorError (Factorization α)) :
    Except FactorError (Workspace α) :=
  match w.bases[place]? with
  | some f => return { w with bases := w.bases.set place (← operation f) }
  | none => .ok w

/-- Writes values over the first entries of the buffer. -/
def write (w : Workspace α) (values : Array α) : Workspace α :=
  { w with buffer := w.buffer.mapIdx fun i old => values.getD i old }

end Workspace

/-- What a call does to a workspace, up to the point where it may fail. -/
def Call.perform (call : Call α) : Changing (Workspace α) Unit := do
  let bases := (← get).bases
  match call with
  | setBasis target entries => Workspace.change target (Factorization.writeBasis entries)
  | push target pivot column => Workspace.change target (Factorization.exchange pivot column)
  | refactorize target => Workspace.change target Factorization.renew
  | makeExplicit target => Workspace.change target Factorization.writeExplicit
  | toggle target enabled => Workspace.change target (modify (·.toggle enabled))
  | clone source => modify fun w => { w with bases := w.bases ++ bases[source]?.toList }
  | store source target =>
    let some f := bases[source]? | return ()
    Workspace.change target do
      MonadExcept.ofExcept (f.checkExchange (← get))
      set f
  | restore target source =>
    let some f := bases[source]? | return ()
    Workspace.change target do
      MonadExcept.ofExcept ((← get).checkExchange f)
      set f
  | invert source =>
    let some f := bases[source]? | return ()
    let rows ← MonadExcept.ofExcept (f.inverseRows (← get).buffer.size)
    modify (·.write rows.flatten)

/-- What the operation that is called gives. -/
def Call.result (w : Workspace α) : Call α → Except FactorError (Workspace α)
  | setBasis target entries => w.altered target (·.setBasis entries)
  | push target pivot column => w.altered target (·.push pivot column)
  | refactorize target => w.altered target (·.refactorize)
  | makeExplicit target => w.altered target (·.makeExplicit)
  | toggle target enabled => w.altered target fun f => .ok (f.toggle enabled)
  | clone source => .ok { w with bases := w.bases ++ w.bases[source]?.toList }
  | store source target =>
    match w.bases[source]? with
    | some f => w.altered target f.storeInto
    | none => .ok w
  | restore target source =>
    match w.bases[source]? with
    | some f => w.altered target (·.restoreFrom f)
    | none => .ok w
  | invert source =>
    match w.bases[source]? with
    | some f => return w.write (← f.inverseRows w.buffer.size).flatten
    | none => .ok w

end ReluSolver
