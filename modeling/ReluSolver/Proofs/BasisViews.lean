import ReluSolver.Basis.Factorization
import ReluSolver.Proofs.EtaProducts
import ReluSolver.Proofs.InPlaceChanges
import ReluSolver.Proofs.LuPivots
import ReluSolver.Proofs.LuTransposed

/-! A factorized basis keeps several views of one matrix: the baseline, its factors and
the exchanges since then, and the matrix itself while it is known. Every operation that
succeeds leaves views of one matrix again, so whichever of them answers is right. A
positive pivot tolerance refuses singular matrices; any other one need not. -/

namespace ReluSolver

open Extended Matrix

variable {m : Nat} {B C : Matrix (Fin m) (Fin m) ℚ}

namespace Lu

variable {s : Lu Extended m} {A F : Matrix (Fin m) (Fin m) ℚ}

theorem Partial.isUnit (done : s.Partial A m F) : IsUnit A := by
  refine mulVec_surjective_iff_isUnit.mp fun Y => ?_
  obtain ⟨X, -, solved⟩ := solve_solves done (denotes_ofFn Y)
  exact ⟨X, solved⟩

theorem Partial.invert_denotes (done : s.Partial A m F) : s.invert.Denotes A⁻¹ := by
  obtain ⟨X, entries, inverse⟩ := invert_mul done
  rwa [inv_eq_left_inv inverse]

end Lu

theorem Square.identity_denotes : (Square.identity : Square Extended m).Denotes 1 :=
  Lu.identity_partial.entries

namespace EtaFile

variable {f next : EtaFile Extended m}

/-- All that is kept stands for one matrix. -/
structure Views (f : EtaFile Extended m) (B : Matrix (Fin m) (Fin m) ℚ) : Prop where
  factored : ∃ A F, f.baseline.Denotes A ∧ f.factors.Partial A m F ∧ A * Eta.product f.etas = B
  regular : ∀ e ∈ f.etas, e.Regular
  explicit : ∀ basis, f.explicit = some basis → basis.Denotes B

/-- The views agree, and the chain of exchanges is not due for a new factorization. -/
structure Tracks (f : EtaFile Extended m) (B : Matrix (Fin m) (Fin m) ℚ) : Prop
    extends f.Views B where
  short : f.etas.length < max 1 f.config.threshold

theorem identity_tracks (config : FactorConfig Extended) :
    (identity config : EtaFile Extended m).Tracks 1 where
  factored := ⟨1, 1, Square.identity_denotes, Lu.identity_partial, one_mul _⟩
  regular := nofun
  explicit := fun _ same => Option.some.inj same ▸ Square.identity_denotes
  short := Nat.lt_of_lt_of_le Nat.one_pos (Nat.le_max_left _ _)

theorem Views.isUnit (views : f.Views B) : IsUnit B := by
  obtain ⟨A, F, -, done, rfl⟩ := views.factored
  exact done.isUnit.mul (Eta.isUnit_product views.regular)

theorem Views.materialize_denotes (views : f.Views B) : f.materialize.Denotes B := by
  unfold materialize
  split
  next basis known => exact views.explicit basis known
  next =>
    obtain ⟨A, F, baseline, -, rfl⟩ := views.factored
    exact Eta.foldl_multiply_denotes views.regular baseline

theorem refactorizeAs_tracks (regular : IsUnit C) {basis : Square Extended m}
    (entries : basis.Denotes C) (run : f.refactorizeAs basis = .ok next) : next.Tracks C := by
  rw [refactorizeAs_eq] at run
  obtain ⟨factors, factorized, same⟩ := bind_eq_ok.mp run
  obtain rfl := Except.ok.inj same
  obtain ⟨F, done⟩ := Lu.factorize_regular regular entries factorized
  exact {
    factored := ⟨C, F, entries, done, mul_one C⟩
    regular := nofun
    explicit := fun _ same => Option.some.inj same ▸ entries
    short := Nat.lt_of_lt_of_le Nat.one_pos (Nat.le_max_left _ _) }

theorem refactorizeAs_config {basis : Square Extended m} (run : f.refactorizeAs basis = .ok next) :
    next.config = f.config := by
  rw [refactorizeAs_eq] at run
  obtain ⟨factors, -, same⟩ := bind_eq_ok.mp run
  obtain rfl := Except.ok.inj same
  rfl

theorem Views.refactorize_tracks (views : f.Views B) (run : f.refactorize = .ok next) :
    next.Tracks B :=
  refactorizeAs_tracks views.isUnit views.materialize_denotes run

theorem Views.append_views (views : f.Views B) {e : Eta Extended m} (regular : e.Regular) :
    (f.append e).Views (B * e.matrix) where
  factored := by
    obtain ⟨A, F, baseline, done, rfl⟩ := views.factored
    refine ⟨A, F, baseline, done, ?_⟩
    rw [append, Eta.product_append_singleton, mul_assoc]
  regular := by
    intro other member
    rcases List.mem_append.mp member with earlier | last
    · exact views.regular other earlier
    · exact List.mem_singleton.mp last ▸ regular
  explicit := by
    intro basis same
    unfold append at same
    dsimp only at same
    split at same
    next => cases same
    next =>
      obtain ⟨before, known, rfl⟩ := Option.map_eq_some_iff.mp same
      exact Eta.multiply_denotes regular (views.explicit before known)

theorem Views.push_tracks (views : f.Views B) {e : Eta Extended m} (regular : e.Regular)
    (run : f.push e = .ok next) : next.Tracks (B * e.matrix) := by
  have appended := views.append_views regular
  rw [push_eq] at run
  split at run
  -- a chain at its limit is multiplied out, which empties it
  next => exact appended.refactorize_tracks run
  next below =>
    obtain rfl := Except.ok.inj run
    exact { appended with short := Nat.lt_of_lt_of_le (Nat.not_le.mp below) (Nat.le_max_right _ _) }

theorem push_config {e : Eta Extended m} (run : f.push e = .ok next) : next.config = f.config := by
  rw [push_eq] at run
  split at run
  next => exact refactorizeAs_config (f := f.append e) run
  next => exact Except.ok.inj run ▸ rfl

theorem makeExplicit_config (run : f.makeExplicit = .ok next) : next.config = f.config := by
  unfold makeExplicit at run
  split at run
  next => exact Except.ok.inj run ▸ rfl
  next => exact refactorizeAs_config run

theorem toggle_config (enabled : Bool) : (f.toggle enabled).config = f.config := by
  unfold toggle
  split <;> rfl

theorem Tracks.toggle_tracks (tracks : f.Tracks B) (enabled : Bool) :
    (f.toggle enabled).Tracks B := by
  unfold toggle
  split
  next => exact { tracks with }
  next =>
    exact { tracks with
      explicit := fun _ same => Option.some.inj same ▸ tracks.materialize_denotes }

theorem Tracks.makeExplicit_tracks (tracks : f.Tracks B) (run : f.makeExplicit = .ok next) :
    next.Tracks B := by
  unfold makeExplicit at run
  split at run
  next => exact Except.ok.inj run ▸ tracks
  next => exact tracks.refactorize_tracks run

theorem Views.freshFactors_partial (views : f.Views B) {factors : Lu Extended m}
    (run : f.freshFactors = .ok factors) : ∃ F, factors.Partial B m F :=
  Lu.factorize_regular views.isUnit views.materialize_denotes run

variable {y out : Vector Extended m} {Y : Fin m → ℚ}

theorem Views.forward_solves (views : f.Views B) (given : Denotes y Y)
    (run : f.forward y = .ok out) :
    ∃ X : Fin m → ℚ, Denotes out X ∧ B *ᵥ X = Y := by
  unfold forward at run
  split at run
  next =>
    obtain rfl := Except.ok.inj run
    obtain ⟨A, F, -, done, rfl⟩ := views.factored
    obtain ⟨Z, first, solved⟩ := Lu.solve_solves done given
    obtain ⟨X, last, chained⟩ := Eta.foldl_solve_solves views.regular first
    exact ⟨X, last, by rw [← mulVec_mulVec, chained, solved]⟩
  next =>
    obtain ⟨factors, fresh, same⟩ := bind_eq_ok.mp run
    obtain rfl := Except.ok.inj same
    obtain ⟨F, done⟩ := views.freshFactors_partial fresh
    exact Lu.solve_solves done given

theorem Views.backward_solves (views : f.Views B) (given : Denotes y Y)
    (run : f.backward y = .ok out) :
    ∃ X : Fin m → ℚ, Denotes out X ∧ X ᵥ* B = Y := by
  unfold backward at run
  split at run
  next =>
    obtain rfl := Except.ok.inj run
    obtain ⟨A, F, -, done, rfl⟩ := views.factored
    obtain ⟨Z, first, chained⟩ := Eta.foldl_solveTransposed_solves views.regular given
    obtain ⟨X, last, solved⟩ := Lu.solveTransposed_solves done first
    exact ⟨X, last, by rw [← vecMul_vecMul, solved, chained]⟩
  next =>
    obtain ⟨factors, fresh, same⟩ := bind_eq_ok.mp run
    obtain rfl := Except.ok.inj same
    obtain ⟨F, done⟩ := views.freshFactors_partial fresh
    exact Lu.solveTransposed_solves done given

theorem Views.invert_denotes (views : f.Views B) {size : Nat} {inverse : Square Extended m}
    (run : f.invert size = .ok inverse) : inverse.Denotes B⁻¹ := by
  unfold invert at run
  split at run
  next => cases run
  next basis known =>
    obtain ⟨⟨⟩, -, run⟩ := bind_eq_ok.mp run
    split at run
    next unchanged =>
      obtain rfl := Except.ok.inj run
      obtain ⟨A, F, -, done, rfl⟩ := views.factored
      rw [Bool.and_eq_true, List.isEmpty_iff] at unchanged
      have same : A * Eta.product f.etas = A := by
        rw [unchanged.1]
        exact mul_one A
      rw [same]
      exact done.invert_denotes
    next =>
      obtain ⟨factors, fresh, same⟩ := bind_eq_ok.mp run
      obtain rfl := Except.ok.inj same
      obtain ⟨F, done⟩ := Lu.factorize_regular views.isUnit (views.explicit basis known) fresh
      exact done.invert_denotes

end EtaFile

namespace DenseBasis

variable {f next : DenseBasis Extended m}

/-- The basis and its factors are those of one matrix. -/
structure Views (f : DenseBasis Extended m) (B : Matrix (Fin m) (Fin m) ℚ) : Prop where
  basis : f.basis.Denotes B
  factored : ∃ F, f.factors.Partial B m F

theorem replaceBasis_views (regular : IsUnit C) {basis : Square Extended m}
    (entries : basis.Denotes C) (run : f.replaceBasis basis = .ok next) : next.Views C := by
  rw [replaceBasis_eq] at run
  obtain ⟨factors, factorized, same⟩ := bind_eq_ok.mp run
  obtain rfl := Except.ok.inj same
  exact ⟨entries, Lu.factorize_regular regular entries factorized⟩

theorem replaceBasis_config {basis : Square Extended m} (run : f.replaceBasis basis = .ok next) :
    next.config = f.config := by
  rw [replaceBasis_eq] at run
  obtain ⟨factors, -, same⟩ := bind_eq_ok.mp run
  obtain rfl := Except.ok.inj same
  rfl

theorem Views.isUnit (views : f.Views B) : IsUnit B := by
  obtain ⟨F, done⟩ := views.factored
  exact done.isUnit

theorem Views.solver_partial (views : f.Views B) {factors : Lu Extended m}
    (run : f.solver = .ok factors) : ∃ F, factors.Partial B m F := by
  unfold solver at run
  split at run
  next => exact Except.ok.inj run ▸ views.factored
  next => exact Lu.factorize_regular views.isUnit views.basis run

end DenseBasis

namespace Factored

variable {f next : Factored Extended m}

def Shows (f : Factored Extended m) (B : Matrix (Fin m) (Fin m) ℚ) : Prop :=
  match f with
  | etaFile f => f.Tracks B
  | dense f => f.Views B

theorem identity_shows (kind : FactorKind) (config : FactorConfig Extended) :
    (identity kind config : Factored Extended m).Shows 1 := by
  cases kind with
  | forrestTomlin => exact EtaFile.identity_tracks config
  | denseLu => exact ⟨Square.identity_denotes, 1, Lu.identity_partial⟩

theorem setBasis_shows (regular : IsUnit C) {basis : Square Extended m} (entries : basis.Denotes C)
    (run : f.setBasis basis = .ok next) : next.Shows C := by
  cases f with
  | etaFile f =>
    obtain ⟨g, made, rfl⟩ := map_eq_ok.mp run
    exact EtaFile.refactorizeAs_tracks regular entries made
  | dense f =>
    obtain ⟨g, made, rfl⟩ := map_eq_ok.mp run
    exact DenseBasis.replaceBasis_views regular entries made

theorem setBasis_isUnit (positive : 0 < f.config.pivotTolerance) {basis : Square Extended m}
    (entries : basis.Denotes C) (run : f.setBasis basis = .ok next) : IsUnit C := by
  have factorized : ∃ factors, Lu.factorize basis f.config.pivotTolerance = .ok factors := by
    cases f with
    | etaFile f =>
      obtain ⟨g, made, -⟩ := map_eq_ok.mp run
      rw [EtaFile.refactorizeAs_eq] at made
      obtain ⟨factors, found, -⟩ := bind_eq_ok.mp made
      exact ⟨factors, found⟩
    | dense f =>
      obtain ⟨g, made, -⟩ := map_eq_ok.mp run
      rw [DenseBasis.replaceBasis_eq] at made
      obtain ⟨factors, found, -⟩ := bind_eq_ok.mp made
      exact ⟨factors, found⟩
  obtain ⟨factors, found⟩ := factorized
  obtain ⟨F, done⟩ := Lu.factorize_partial positive entries found
  exact done.isUnit

namespace Shows

variable (shows : f.Shows B)
include shows

theorem isUnit : IsUnit B := by
  cases f with
  | etaFile f => exact EtaFile.Views.isUnit shows.toViews
  | dense f => exact DenseBasis.Views.isUnit shows

theorem push {e : Eta Extended m} (regular : e.Regular) (run : f.push e = .ok next) :
    next.Shows (B * e.matrix) := by
  cases f with
  | etaFile f =>
    obtain ⟨g, made, rfl⟩ := map_eq_ok.mp run
    exact EtaFile.Views.push_tracks shows.toViews regular made
  | dense f =>
    obtain ⟨g, made, rfl⟩ := map_eq_ok.mp run
    have entries := Eta.multiply_denotes regular (DenseBasis.Views.basis shows)
    exact DenseBasis.replaceBasis_views (shows.isUnit.mul (Eta.isUnit_matrix regular)) entries made

theorem refactorize (run : f.refactorize = .ok next) : next.Shows B := by
  cases f with
  | etaFile f =>
    obtain ⟨g, made, rfl⟩ := map_eq_ok.mp run
    exact EtaFile.Views.refactorize_tracks shows.toViews made
  | dense f => exact Except.ok.inj run ▸ shows

theorem makeExplicit (run : f.makeExplicit = .ok next) : next.Shows B := by
  cases f with
  | etaFile f =>
    obtain ⟨g, made, rfl⟩ := map_eq_ok.mp run
    exact EtaFile.Tracks.makeExplicit_tracks shows made
  | dense f => exact Except.ok.inj run ▸ shows

theorem toggle (enabled : Bool) : (f.toggle enabled).Shows B := by
  cases f with
  | etaFile f => exact EtaFile.Tracks.toggle_tracks shows enabled
  | dense f =>
    have views : f.Views B := shows
    exact ⟨views.basis, views.factored⟩

theorem forward_solves {y out : Vector Extended m} {Y : Fin m → ℚ}
    (given : Denotes y Y) (run : f.forward y = .ok out) :
    ∃ X : Fin m → ℚ, Denotes out X ∧ B *ᵥ X = Y := by
  cases f with
  | etaFile f => exact EtaFile.Views.forward_solves shows.toViews given run
  | dense f =>
    obtain ⟨factors, solver, same⟩ := bind_eq_ok.mp run
    obtain rfl := Except.ok.inj same
    obtain ⟨F, done⟩ := DenseBasis.Views.solver_partial shows solver
    exact Lu.solve_solves done given

theorem backward_solves {y out : Vector Extended m} {Y : Fin m → ℚ}
    (given : Denotes y Y) (run : f.backward y = .ok out) :
    ∃ X : Fin m → ℚ, Denotes out X ∧ X ᵥ* B = Y := by
  cases f with
  | etaFile f => exact EtaFile.Views.backward_solves shows.toViews given run
  | dense f =>
    obtain ⟨factors, solver, same⟩ := bind_eq_ok.mp run
    obtain rfl := Except.ok.inj same
    obtain ⟨F, done⟩ := DenseBasis.Views.solver_partial shows solver
    exact Lu.solveTransposed_solves done given

theorem basis_denotes {basis : Square Extended m} (known : f.basis? = some basis) :
    basis.Denotes B := by
  cases f with
  | etaFile f => exact EtaFile.Views.explicit shows.toViews basis known
  | dense f => exact Option.some.inj known ▸ DenseBasis.Views.basis shows

theorem invert_denotes {size : Nat} {inverse : Square Extended m}
    (run : f.invert size = .ok inverse) : inverse.Denotes B⁻¹ := by
  cases f with
  | etaFile f => exact EtaFile.Views.invert_denotes shows.toViews run
  | dense f =>
    obtain ⟨⟨⟩, -, run⟩ := bind_eq_ok.mp run
    obtain ⟨factors, solver, same⟩ := bind_eq_ok.mp run
    obtain rfl := Except.ok.inj same
    obtain ⟨F, done⟩ := DenseBasis.Views.solver_partial shows solver
    exact done.invert_denotes

theorem chainLength_lt : f.chainLength < max 1 f.config.threshold := by
  cases f with
  | etaFile f => exact EtaFile.Tracks.short shows
  | dense f => exact Nat.lt_of_lt_of_le Nat.one_pos (Nat.le_max_left _ _)

end Shows

theorem setBasis_config {basis : Square Extended m} (run : f.setBasis basis = .ok next) :
    next.config = f.config := by
  cases f with
  | etaFile f =>
    obtain ⟨g, made, rfl⟩ := map_eq_ok.mp run
    exact EtaFile.refactorizeAs_config made
  | dense f =>
    obtain ⟨g, made, rfl⟩ := map_eq_ok.mp run
    exact DenseBasis.replaceBasis_config made

theorem push_config {e : Eta Extended m} (run : f.push e = .ok next) : next.config = f.config := by
  cases f with
  | etaFile f =>
    obtain ⟨g, made, rfl⟩ := map_eq_ok.mp run
    exact EtaFile.push_config made
  | dense f =>
    obtain ⟨g, made, rfl⟩ := map_eq_ok.mp run
    exact DenseBasis.replaceBasis_config made

theorem refactorize_config (run : f.refactorize = .ok next) : next.config = f.config := by
  cases f with
  | etaFile f =>
    obtain ⟨g, made, rfl⟩ := map_eq_ok.mp run
    exact EtaFile.refactorizeAs_config made
  | dense f => exact Except.ok.inj run ▸ rfl

theorem makeExplicit_config (run : f.makeExplicit = .ok next) : next.config = f.config := by
  cases f with
  | etaFile f =>
    obtain ⟨g, made, rfl⟩ := map_eq_ok.mp run
    exact EtaFile.makeExplicit_config made
  | dense f => exact Except.ok.inj run ▸ rfl

theorem toggle_config (enabled : Bool) : (f.toggle enabled).config = f.config := by
  cases f with
  | etaFile f => exact EtaFile.toggle_config enabled
  | dense f => rfl

/-- The factorized basis is the matrix, and only invertible matrices take its place. -/
structure Tracks (f : Factored Extended m) (B : Matrix (Fin m) (Fin m) ℚ) : Prop where
  tolerance : 0 < f.config.pivotTolerance
  shows : f.Shows B

theorem identity_tracks (kind : FactorKind) {config : FactorConfig Extended}
    (positive : 0 < config.pivotTolerance) : (identity kind config : Factored Extended m).Tracks 1 where
  tolerance := by cases kind <;> exact positive
  shows := identity_shows kind config

theorem forward_total (enabled : f.enabled = true) (y : Vector Extended m) :
    ∃ out, f.forward y = .ok out := by
  cases f with
  | etaFile f => exact ⟨_, if_pos enabled⟩
  | dense f =>
    have solver : f.solver = .ok f.factors := if_pos enabled
    exact ⟨_, bind_eq_ok.mpr ⟨_, solver, rfl⟩⟩

theorem backward_total (enabled : f.enabled = true) (y : Vector Extended m) :
    ∃ out, f.backward y = .ok out := by
  cases f with
  | etaFile f => exact ⟨_, if_pos enabled⟩
  | dense f =>
    have solver : f.solver = .ok f.factors := if_pos enabled
    exact ⟨_, bind_eq_ok.mpr ⟨_, solver, rfl⟩⟩

end Factored

namespace Factorization

variable {f other exchanged : Factorization Extended}

theorem storeInto_eq (run : f.storeInto other = .ok exchanged) : exchanged = f := by
  obtain ⟨⟨⟩, -, same⟩ := bind_eq_ok.mp run
  exact (Except.ok.inj same).symm

theorem restoreFrom_eq (run : f.restoreFrom other = .ok exchanged) : exchanged = other := by
  obtain ⟨⟨⟩, -, same⟩ := bind_eq_ok.mp run
  exact (Except.ok.inj same).symm

end Factorization

end ReluSolver
