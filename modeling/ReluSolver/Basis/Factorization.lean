import ReluSolver.Basis.Eta
import ReluSolver.Basis.Lu
import ReluSolver.Number.Tolerance

/-!
A factorized basis: a square matrix `B` together with what is needed to solve `B · x = y` and
`x · B = y`, kept current while columns of `B` are exchanged.

What is kept is overwritten in place. An operation that fails returns no new factorization, and has
to leave the one that its caller has as it was.
-/

namespace ReluSolver

/-- Changes made in place. One that fails leaves whatever it has written by then. -/
abbrev Changing (σ : Type) := EStateM FactorError σ

/-- What a change makes of a state, unless it fails. -/
def Changing.outcome {σ : Type} (change : Changing σ Unit) (s : σ) : Except FactorError σ :=
  match change s with
  | .ok _ next => .ok next
  | .error cause _ => .error cause

structure FactorConfig (α : Type) where
  pivotTolerance : α
  /-- The length of the chain of exchanges at which a basis is factorized anew. -/
  threshold : Nat
deriving BEq

namespace FactorConfig

variable {α : Type} [Scalar α]

def default : FactorConfig α := ⟨Tolerance.defaultPivot, 100⟩

/-- A chain of at least one exchange has to be allowed. -/
def withThreshold (c : FactorConfig α) (threshold : Nat) : FactorConfig α :=
  { c with threshold := max threshold 1 }

end FactorConfig

/-- A basis `baseline · E₁ ⋯ Eₙ`, where `factors` are those of `baseline`. -/
structure EtaFile (α : Type) (m : Nat) where
  config : FactorConfig α
  baseline : Square α m
  factors : Lu α m
  /-- The exchanges since `baseline`, in order. -/
  etas : List (Eta α m)
  /-- The basis itself, while it is known. -/
  explicit : Option (Square α m)
  /-- Whether the factors are used; otherwise every solve factorizes the basis itself. -/
  enabled : Bool

namespace EtaFile

variable {α : Type} [Scalar α] {m : Nat}

def identity (config : FactorConfig α) : EtaFile α m :=
  ⟨config, Square.identity, Lu.identity, [], some Square.identity, true⟩

/-- The basis, multiplied out if it is not known. -/
def materialize (f : EtaFile α m) : Square α m :=
  match f.explicit with
  | some basis => basis
  | none => f.etas.foldl (fun b e => e.multiply b) f.baseline

/-- Starts over from a basis, once it is factorized. -/
def renew (basis : Square α m) : Changing (EtaFile α m) Unit := do
  let factors ← MonadExcept.ofExcept (Lu.factorize basis (← get).config.pivotTolerance)
  modify ({ · with factors := factors })
  modify ({ · with etas := [] })
  modify ({ · with explicit := some basis })
  modify ({ · with baseline := basis })

def refactorizeAs (f : EtaFile α m) (basis : Square α m) : Except FactorError (EtaFile α m) :=
  (renew basis).outcome f

def refactorize (f : EtaFile α m) : Except FactorError (EtaFile α m) :=
  f.refactorizeAs f.materialize

/-- Appends an exchange. While the factors are used the basis is forgotten, else it follows. -/
def append (f : EtaFile α m) (e : Eta α m) : EtaFile α m :=
  { f with
    etas := f.etas ++ [e]
    explicit := if f.enabled then none else f.explicit.map e.multiply }

/-- Appends an exchange and starts over where the chain is due. If the new basis is refused, the
exchange is taken off again, and the old basis is put back if it was known. -/
def exchange (e : Eta α m) : Changing (EtaFile α m) Unit := do
  let f ← get
  let due : Bool := f.config.threshold ≤ f.etas.length + 1
  let previous := if due then f.explicit else none
  modify (·.append e)
  if due then
    try renew (← get).materialize
    catch cause =>
      modify fun f => { f with etas := f.etas.dropLast }
      modify ({ · with explicit := previous })
      throw cause

def push (f : EtaFile α m) (e : Eta α m) : Except FactorError (EtaFile α m) :=
  (exchange e).outcome f

/-- The factors of the basis itself. -/
def freshFactors (f : EtaFile α m) : Except FactorError (Lu α m) :=
  Lu.factorize f.materialize f.config.pivotTolerance

def forward (f : EtaFile α m) (y : Vector α m) : Except FactorError (Vector α m) :=
  if f.enabled then .ok (f.etas.foldl (fun z e => e.solve z) (f.factors.solve y))
  else return (← f.freshFactors).solve y

def backward (f : EtaFile α m) (y : Vector α m) : Except FactorError (Vector α m) :=
  if f.enabled then
    .ok (f.factors.solveTransposed (f.etas.reverse.foldl (fun z e => e.solveTransposed z) y))
  else
    return (← f.freshFactors).solveTransposed y

/-- Without factors the basis has to be known. -/
def toggle (f : EtaFile α m) (enabled : Bool) : EtaFile α m :=
  if enabled then { f with enabled := true }
  else { f with enabled := false, explicit := some f.materialize }

def makeExplicit (f : EtaFile α m) : Except FactorError (EtaFile α m) :=
  match f.explicit with
  | some _ => .ok f
  | none => f.refactorize

/-- The inverse of a known basis, written to a buffer of `size` entries. -/
def invert (f : EtaFile α m) (size : Nat) : Except FactorError (Square α m) :=
  match f.explicit with
  | none => .error .notExplicit
  | some basis => do
    checkLength (m * m) size
    if f.etas.isEmpty && f.enabled then return f.factors.invert
    return (← Lu.factorize basis f.config.pivotTolerance).invert

end EtaFile

/-- A known basis and its factors. -/
structure DenseBasis (α : Type) (m : Nat) where
  config : FactorConfig α
  basis : Square α m
  factors : Lu α m
  /-- Whether the factors are used; otherwise every solve factorizes the basis anew. -/
  enabled : Bool

namespace DenseBasis

variable {α : Type} [Scalar α] {m : Nat}

def identity (config : FactorConfig α) : DenseBasis α m :=
  ⟨config, Square.identity, Lu.identity, true⟩

/-- Takes over a basis, once it is factorized. -/
def renew (basis : Square α m) : Changing (DenseBasis α m) Unit := do
  let factors ← MonadExcept.ofExcept (Lu.factorize basis (← get).config.pivotTolerance)
  modify ({ · with factors := factors })
  modify ({ · with basis := basis })

def replaceBasis (f : DenseBasis α m) (basis : Square α m) :
    Except FactorError (DenseBasis α m) :=
  (renew basis).outcome f

def solver (f : DenseBasis α m) : Except FactorError (Lu α m) :=
  if f.enabled then .ok f.factors else Lu.factorize f.basis f.config.pivotTolerance

end DenseBasis

/-- A factorized basis of either kind. -/
inductive Factored (α : Type) (m : Nat) where
  | etaFile (f : EtaFile α m)
  | dense (f : DenseBasis α m)

namespace Factored

variable {α : Type} [Scalar α] {m : Nat}

def kind : Factored α m → FactorKind
  | etaFile _ => .forrestTomlin
  | dense _ => .denseLu

def config : Factored α m → FactorConfig α
  | etaFile f => f.config
  | dense f => f.config

/-- The identity basis. -/
def identity (kind : FactorKind) (config : FactorConfig α) : Factored α m :=
  match kind with
  | .forrestTomlin => etaFile (EtaFile.identity config)
  | .denseLu => dense (DenseBasis.identity config)

def setBasis (f : Factored α m) (basis : Square α m) : Except FactorError (Factored α m) :=
  match f with
  | etaFile f => etaFile <$> f.refactorizeAs basis
  | dense f => dense <$> f.replaceBasis basis

/-- Turns the basis `B` into `B · E`. -/
def push (f : Factored α m) (e : Eta α m) : Except FactorError (Factored α m) :=
  match f with
  | etaFile f => etaFile <$> f.push e
  | dense f => dense <$> f.replaceBasis (e.multiply f.basis)

/-- The solution of `B · x = y`. -/
def forward (f : Factored α m) (y : Vector α m) : Except FactorError (Vector α m) :=
  match f with
  | etaFile f => f.forward y
  | dense f => return (← f.solver).solve y

/-- The solution of `x · B = y`. -/
def backward (f : Factored α m) (y : Vector α m) : Except FactorError (Vector α m) :=
  match f with
  | etaFile f => f.backward y
  | dense f => return (← f.solver).solveTransposed y

def enabled : Factored α m → Bool
  | etaFile f => f.enabled
  | dense f => f.enabled

def toggle (f : Factored α m) (enabled : Bool) : Factored α m :=
  match f with
  | etaFile f => etaFile (f.toggle enabled)
  | dense f => dense { f with enabled := enabled }

/-- The basis, if it is known without multiplying it out. -/
def basis? : Factored α m → Option (Square α m)
  | etaFile f => f.explicit
  | dense f => some f.basis

def makeExplicit (f : Factored α m) : Except FactorError (Factored α m) :=
  match f with
  | etaFile f => etaFile <$> f.makeExplicit
  | dense f => .ok (dense f)

/-- The inverse of the basis, written to a buffer of `size` entries. -/
def invert (f : Factored α m) (size : Nat) : Except FactorError (Square α m) :=
  match f with
  | etaFile f => f.invert size
  | dense f => do
    checkLength (m * m) size
    return (← f.solver).invert

/-- The number of exchanges since the factors were computed. -/
def chainLength : Factored α m → Nat
  | etaFile f => f.etas.length
  | dense _ => 0

def refactorize (f : Factored α m) : Except FactorError (Factored α m) :=
  match f with
  | etaFile f => etaFile <$> f.refactorize
  | dense f => .ok (dense f)

end Factored

/-- A factorized basis of some dimension, used with vectors whose lengths are checked. -/
structure Factorization (α : Type) where
  dimension : Nat
  factored : Factored α dimension

namespace Factorization

variable {α : Type} [Scalar α]

def create (kind : FactorKind) (dimension : Nat) (config : FactorConfig α) : Factorization α :=
  ⟨dimension, Factored.identity kind config⟩

def kind (f : Factorization α) : FactorKind := f.factored.kind

/-- Replaces the basis by a matrix given row by row. -/
def setBasis (f : Factorization α) (entries : Array α) : Except FactorError (Factorization α) := do
  let basis ← Square.ofFlat f.dimension entries
  return { f with factored := ← f.factored.setBasis basis }

/-- Exchanges column `p` for `B · column`. -/
def push (f : Factorization α) (p : Nat) (column : Array α) :
    Except FactorError (Factorization α) := do
  let column ← toVector f.dimension column
  let eta ← Eta.make p column f.factored.config.pivotTolerance
  return { f with factored := ← f.factored.push eta }

/-- The solution of `B · x = y`, written to a buffer of `size` entries. -/
def forward (f : Factorization α) (y : Array α) (size : Nat) : Except FactorError (Array α) := do
  let y ← toVector f.dimension y
  checkLength f.dimension size
  return (← f.factored.forward y).toArray

/-- The solution of `x · B = y`, written to a buffer of `size` entries. -/
def backward (f : Factorization α) (y : Array α) (size : Nat) : Except FactorError (Array α) := do
  let y ← toVector f.dimension y
  checkLength f.dimension size
  return (← f.factored.backward y).toArray

/-- Whether `other` can take over the state of `f`, or give it its own. -/
def checkExchange (f other : Factorization α) : Except FactorError Unit := do
  checkLength f.dimension other.dimension
  if f.kind = other.kind then return ()
  throw (.kindMismatch f.kind other.kind)

/-- Copies the state of `f` over that of `target`. -/
def storeInto (f target : Factorization α) : Except FactorError (Factorization α) := do
  f.checkExchange target
  return f

/-- Copies the state of `source` over that of `f`. -/
def restoreFrom (f source : Factorization α) : Except FactorError (Factorization α) := do
  f.checkExchange source
  return source

def enabled (f : Factorization α) : Bool := f.factored.enabled

def toggle (f : Factorization α) (enabled : Bool) : Factorization α :=
  { f with factored := f.factored.toggle enabled }

/-- The basis row by row, if it is known. -/
def basis? (f : Factorization α) : Option (Array α) := f.factored.basis?.map Square.toFlat

def isExplicit (f : Factorization α) : Bool := f.factored.basis?.isSome

def makeExplicit (f : Factorization α) : Except FactorError (Factorization α) :=
  return { f with factored := ← f.factored.makeExplicit }

/-- The rows of the inverse of the basis, written to a buffer of `size` entries. -/
def inverseRows (f : Factorization α) (size : Nat) : Except FactorError (Array (Array α)) :=
  return ((← f.factored.invert size).map Vector.toArray).toArray

def chainLength (f : Factorization α) : Nat := f.factored.chainLength

def refactorize (f : Factorization α) : Except FactorError (Factorization α) :=
  return { f with factored := ← f.factored.refactorize }

end Factorization

end ReluSolver
