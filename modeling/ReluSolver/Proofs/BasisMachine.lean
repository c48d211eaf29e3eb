import ReluSolver.Proofs.BasisViews

/-! However factorized bases are changed, cloned and copied over each other, each of them
stands for one matrix: the identity at first, then what the operations that succeeded
have made of it. Its answers are those of the matrix, whichever kind it is of. -/

namespace ReluSolver.BasisMachine

open Extended Matrix

def vectorOf (m : Nat) (entries : Array ℚ) : Fin m → ℚ := fun i => entries.getD i 0

inductive Change where
  | setBasis (entries : Array ℚ)
  | push (pivot : Nat) (column : Array ℚ)
  | refactorize
  | makeExplicit
  | toggle (enabled : Bool)

namespace Change

def perform (f : Factorization Extended) : Change → Except FactorError (Factorization Extended)
  | setBasis entries => f.setBasis (entries.map finite)
  | push pivot column => f.push pivot (column.map finite)
  | refactorize => f.refactorize
  | makeExplicit => f.makeExplicit
  | toggle enabled => .ok (f.toggle enabled)

/-- What a change that succeeds does to the matrix. -/
def onMatrix {m : Nat} (B : Matrix (Fin m) (Fin m) ℚ) : Change → Matrix (Fin m) (Fin m) ℚ
  | setBasis entries => fun i j => entries.getD (i * m + j) 0
  | push pivot column =>
    if known : pivot < m then
      B * (1 : Matrix (Fin m) (Fin m) ℚ).updateCol ⟨pivot, known⟩ (vectorOf m column)
    else B
  | refactorize | makeExplicit | toggle _ => B

end Change

/-- A factorized basis, together with the matrix that it is to stand for. -/
structure Cell where
  dimension : Nat
  factorization : Factorization Extended
  matrix : Matrix (Fin dimension) (Fin dimension) ℚ

namespace Cell

def identity (kind : FactorKind) (dimension : Nat) (config : FactorConfig Extended) : Cell :=
  ⟨dimension, Factorization.create kind dimension config, 1⟩

/-- A change that fails leaves everything as it was. -/
def change (cell : Cell) (c : Change) : Cell :=
  match c.perform cell.factorization with
  | .ok f => { cell with factorization := f, matrix := c.onMatrix cell.matrix }
  | .error _ => cell

/-- The cell that an exchange of state with `source` leaves; a refused exchange changes nothing. -/
def overwritten (cell source : Cell) (exchanged : Except FactorError (Factorization Extended)) :
    Cell :=
  match exchanged with
  | .ok f => { source with factorization := f }
  | .error _ => cell

end Cell

/-- An operation on the bases of a pool, which are known by their places. A place that is not in
the pool is passed over. -/
inductive Event where
  | change (target : Nat) (c : Change)
  | clone (source : Nat)
  | store (source target : Nat)
  | restore (target source : Nat)

def step (pool : List Cell) : Event → List Cell
  | .change target c =>
    match pool[target]? with
    | some cell => pool.set target (cell.change c)
    | none => pool
  | .clone source => pool ++ pool[source]?.toList
  | .store source target =>
    match pool[source]?, pool[target]? with
    | some origin, some cell => pool.set target
        (cell.overwritten origin (origin.factorization.storeInto cell.factorization))
    | _, _ => pool
  | .restore target source =>
    match pool[source]?, pool[target]? with
    | some origin, some cell => pool.set target
        (cell.overwritten origin (cell.factorization.restoreFrom origin.factorization))
    | _, _ => pool

def run (pool : List Cell) (events : List Event) : List Cell := events.foldl step pool

section Answers

variable {m : Nat} {B : Matrix (Fin m) (Fin m) ℚ}

def rowsOf (B : Matrix (Fin m) (Fin m) ℚ) : Array (Array Extended) :=
  Array.ofFn fun i => Array.ofFn fun j => finite (B i j)

/-- The answers of a factorized basis are those of an invertible matrix. -/
structure Represents (f : Factorization Extended) (B : Matrix (Fin m) (Fin m) ℚ) : Prop where
  invertible : IsUnit B
  answers : f.enabled = true → ∀ y : Array ℚ, y.size = m →
    (∃ out, f.forward (y.map finite) m = .ok out) ∧ ∃ out, f.backward (y.map finite) m = .ok out
  forward : ∀ (y : Array ℚ) size out, f.forward (y.map finite) size = .ok out →
    y.size = m ∧ ∃ x : Fin m → ℚ, out = Array.ofFn (fun i => finite (x i)) ∧
      ∀ v, B *ᵥ v = vectorOf m y ↔ v = x
  backward : ∀ (y : Array ℚ) size out, f.backward (y.map finite) size = .ok out →
    y.size = m ∧ ∃ x : Fin m → ℚ, out = Array.ofFn (fun i => finite (x i)) ∧
      ∀ v, v ᵥ* B = vectorOf m y ↔ v = x
  basis : ∀ entries, f.basis? = some entries → entries = (rowsOf B).flatten
  inverse : ∀ size rows, f.inverseRows size = .ok rows → rows = rowsOf B⁻¹
  chainLength : f.chainLength < max 1 f.factored.config.threshold

theorem toVector_eq_ok {y : Array ℚ} {v : Vector Extended m}
    (run : toVector m (y.map finite) = .ok v) :
    y.size = m ∧ Denotes v (vectorOf m y) := by
  unfold toVector at run
  split at run
  next size =>
    obtain rfl := Except.ok.inj run
    rw [Array.size_map] at size
    refine ⟨size, fun i => ?_⟩
    have known : i.val < y.size := size ▸ i.isLt
    simp [vectorOf, known]
  next => cases run

theorem asked {solve : Vector Extended m → Except FactorError (Vector Extended m)} {y : Array ℚ}
    {size : Nat} {out : Array Extended}
    (run : (do
      let v ← toVector m (y.map finite)
      checkLength m size
      return (← solve v).toArray) = .ok out) :
    y.size = m ∧ ∃ v solution, Denotes v (vectorOf m y) ∧ solve v = .ok solution ∧
      out = solution.toArray := by
  obtain ⟨v, given, run⟩ := bind_eq_ok.mp run
  obtain ⟨⟨⟩, -, run⟩ := bind_eq_ok.mp run
  obtain ⟨solution, made, same⟩ := bind_eq_ok.mp run
  obtain ⟨whole, entries⟩ := toVector_eq_ok given
  exact ⟨whole, v, solution, entries, made, (Except.ok.inj same).symm⟩

theorem toArray_eq {v : Vector Extended m} {x : Fin m → ℚ} (entries : Denotes v x) :
    v.toArray = Array.ofFn fun i => finite (x i) := by
  refine Array.ext (by simp) fun i inside _ => ?_
  have known : i < m := by simpa using inside
  rw [Array.getElem_ofFn]
  exact entries ⟨i, known⟩

theorem rowsOf_eq {a : Square Extended m} (entries : a.Denotes B) :
    (a.map Vector.toArray).toArray = rowsOf B := by
  refine Array.ext (by simp [rowsOf]) fun i inside _ => ?_
  have known : i < m := by simpa using inside
  have row := toArray_eq (entries ⟨i, known⟩)
  simpa [rowsOf] using row

theorem ofFlat_denotes {entries : Array ℚ} {basis : Square Extended m}
    (run : Square.ofFlat m (entries.map finite) = .ok basis) :
    basis.Denotes fun i j => entries.getD (i * m + j) 0 := by
  unfold Square.ofFlat at run
  split at run
  next => cases run
  next =>
    obtain rfl := Except.ok.inj run
    intro i j
    simp only [Square.ofEntries, Fin.getElem_fin, Vector.getElem_ofFn,
      Array.getD_eq_getD_getElem?, Array.getElem?_map]
    cases entries[i.val * m + j.val]? with
    | none => exact zero_eq
    | some value => rfl

theorem shown_represents {g : Factored Extended m} (shows : g.Shows B) :
    Represents ⟨m, g⟩ B where
  invertible := shows.isUnit
  answers := by
    intro enabled y size
    have given : toVector m (y.map finite) = .ok ⟨y.map finite, Array.size_map.trans size⟩ :=
      dif_pos (Array.size_map.trans size)
    have length : checkLength m m = .ok () := if_pos rfl
    obtain ⟨x, forward⟩ := Factored.forward_total enabled ⟨y.map finite, Array.size_map.trans size⟩
    obtain ⟨v, backward⟩ := Factored.backward_total enabled ⟨y.map finite, Array.size_map.trans size⟩
    exact ⟨⟨_, bind_eq_ok.mpr ⟨_, given, bind_eq_ok.mpr ⟨_, length, bind_eq_ok.mpr ⟨x, forward, rfl⟩⟩⟩⟩,
      _, bind_eq_ok.mpr ⟨_, given, bind_eq_ok.mpr ⟨_, length, bind_eq_ok.mpr ⟨v, backward, rfl⟩⟩⟩⟩
  forward := by
    intro y size out run
    obtain ⟨whole, v, solution, entries, made, rfl⟩ := asked run
    obtain ⟨x, values, solved⟩ := shows.forward_solves entries made
    refine ⟨whole, x, toArray_eq values, fun v => ⟨fun other => ?_, fun same => same ▸ solved⟩⟩
    exact mulVec_injective_of_isUnit shows.isUnit (other.trans solved.symm)
  backward := by
    intro y size out run
    obtain ⟨whole, v, solution, entries, made, rfl⟩ := asked run
    obtain ⟨x, values, solved⟩ := shows.backward_solves entries made
    refine ⟨whole, x, toArray_eq values, fun v => ⟨fun other => ?_, fun same => same ▸ solved⟩⟩
    exact vecMul_injective_of_isUnit shows.isUnit (other.trans solved.symm)
  basis := by
    intro entries known
    obtain ⟨basis, kept, rfl⟩ := Option.map_eq_some_iff.mp known
    rw [Square.toFlat, rowsOf_eq (shows.basis_denotes kept)]
  inverse := by
    intro size rows run
    obtain ⟨inverse, made, same⟩ := bind_eq_ok.mp run
    obtain rfl := Except.ok.inj same
    exact rowsOf_eq (shows.invert_denotes made)
  chainLength := shows.chainLength_lt

theorem represents {g : Factored Extended m} (tracks : g.Tracks B) : Represents ⟨m, g⟩ B :=
  shown_represents tracks.shows

end Answers

section Runs

variable {pool : List Cell}

theorem Change.perform_shows {m : Nat} {B : Matrix (Fin m) (Fin m) ℚ} {g : Factored Extended m}
    (shows : IsUnit B → g.Shows B) {c : Change} {f : Factorization Extended}
    (run : c.perform ⟨m, g⟩ = .ok f) : ∃ next : Factored Extended m, f = ⟨m, next⟩ ∧
      next.config = g.config ∧ (IsUnit (c.onMatrix B) → next.Shows (c.onMatrix B)) := by
  cases c with
  | setBasis entries =>
    obtain ⟨basis, read, run⟩ := bind_eq_ok.mp run
    obtain ⟨next, made, same⟩ := bind_eq_ok.mp run
    obtain rfl := Except.ok.inj same
    exact ⟨next, rfl, Factored.setBasis_config made,
      fun regular => Factored.setBasis_shows regular (ofFlat_denotes read) made⟩
  | push pivot column =>
    obtain ⟨v, given, run⟩ := bind_eq_ok.mp run
    obtain ⟨e, found, run⟩ := bind_eq_ok.mp run
    obtain ⟨next, made, same⟩ := bind_eq_ok.mp run
    obtain rfl := Except.ok.inj same
    obtain ⟨entries, -, known, matrix⟩ := Eta.make_spec (toVector_eq_ok given).2 found
    refine ⟨next, rfl, Factored.push_config made, fun regular => ?_⟩
    rw [onMatrix, dif_pos known, ← matrix] at regular ⊢
    have factors := (isUnit_iff_isUnit_det _).mp regular
    rw [det_mul, IsUnit.mul_iff] at factors
    have before := (isUnit_iff_isUnit_det B).mpr factors.1
    have exchange := (isUnit_iff_isUnit_det e.matrix).mpr factors.2
    exact (shows before).push (Eta.regular_of_isUnit entries exchange) made
  | refactorize =>
    obtain ⟨next, made, same⟩ := bind_eq_ok.mp run
    obtain rfl := Except.ok.inj same
    exact ⟨next, rfl, Factored.refactorize_config made, fun regular => (shows regular).refactorize made⟩
  | makeExplicit =>
    obtain ⟨next, made, same⟩ := bind_eq_ok.mp run
    obtain rfl := Except.ok.inj same
    exact ⟨next, rfl, Factored.makeExplicit_config made,
      fun regular => (shows regular).makeExplicit made⟩
  | toggle enabled =>
    obtain rfl := Except.ok.inj run
    exact ⟨g.toggle enabled, rfl, Factored.toggle_config enabled,
      fun regular => (shows regular).toggle enabled⟩

/-- With a positive pivot tolerance a change never leads to a singular matrix. -/
theorem Change.perform_isUnit {m : Nat} {B : Matrix (Fin m) (Fin m) ℚ} {g : Factored Extended m}
    (tracks : g.Tracks B) {c : Change} {f : Factorization Extended}
    (run : c.perform ⟨m, g⟩ = .ok f) : IsUnit (c.onMatrix B) := by
  have unit := tracks.shows.isUnit
  cases c with
  | setBasis entries =>
    obtain ⟨basis, read, run⟩ := bind_eq_ok.mp run
    obtain ⟨next, made, -⟩ := bind_eq_ok.mp run
    exact Factored.setBasis_isUnit tracks.tolerance (ofFlat_denotes read) made
  | push pivot column =>
    obtain ⟨v, given, run⟩ := bind_eq_ok.mp run
    obtain ⟨e, found, run⟩ := bind_eq_ok.mp run
    have entries := (toVector_eq_ok given).2
    obtain ⟨-, -, known, matrix⟩ := Eta.make_spec entries found
    rw [onMatrix, dif_pos known, ← matrix]
    exact unit.mul (Eta.isUnit_matrix (Eta.make_regular tracks.tolerance entries found))
  | refactorize | makeExplicit | toggle enabled => exact unit

theorem Change.perform_tracks {m : Nat} {B : Matrix (Fin m) (Fin m) ℚ} {g : Factored Extended m}
    (tracks : g.Tracks B) {c : Change} {f : Factorization Extended}
    (run : c.perform ⟨m, g⟩ = .ok f) :
    ∃ next : Factored Extended m, f = ⟨m, next⟩ ∧ next.Tracks (c.onMatrix B) := by
  obtain ⟨next, shape, config, shows⟩ := perform_shows (fun _ => tracks.shows) run
  exact ⟨next, shape, config ▸ tracks.tolerance, shows (perform_isUnit tracks run)⟩

/-- The factorized basis of a cell shows its matrix, unless that is singular. -/
def Cell.Shows (cell : Cell) : Prop :=
  ∃ g : Factored Extended cell.dimension, cell.factorization = ⟨cell.dimension, g⟩ ∧
    (IsUnit cell.matrix → g.Shows cell.matrix)

/-- The factorized basis of a cell stands for its matrix. -/
def Cell.Tracks (cell : Cell) : Prop :=
  ∃ g : Factored Extended cell.dimension,
    cell.factorization = ⟨cell.dimension, g⟩ ∧ g.Tracks cell.matrix

theorem Cell.Shows.change {cell : Cell} (shows : cell.Shows) (c : Change) : (cell.change c).Shows := by
  obtain ⟨g, shape, views⟩ := shows
  unfold Cell.change
  split
  next f run =>
    rw [shape] at run
    obtain ⟨next, made, -, shown⟩ := c.perform_shows views run
    exact ⟨next, made, shown⟩
  next => exact ⟨g, shape, views⟩

theorem Cell.Tracks.change {cell : Cell} (tracks : cell.Tracks) (c : Change) :
    (cell.change c).Tracks := by
  obtain ⟨g, shape, views⟩ := tracks
  unfold Cell.change
  split
  next f run =>
    rw [shape] at run
    exact c.perform_tracks views run
  next => exact ⟨g, shape, views⟩

section Pools

variable {property : Cell → Prop}

theorem Cell.overwritten_keeps {cell origin : Cell} (holds : property cell) (source : property origin)
    {exchanged : Except FactorError (Factorization Extended)}
    (copied : ∀ f, exchanged = .ok f → f = origin.factorization) :
    property (cell.overwritten origin exchanged) := by
  unfold Cell.overwritten
  split
  next f => exact copied f rfl ▸ source
  next => exact holds

theorem set_keeps (all : ∀ cell ∈ pool, property cell) {target : Nat} {cell : Cell}
    (placed : property cell) : ∀ other ∈ pool.set target cell, property other := by
  intro other member
  rcases List.mem_or_eq_of_mem_set member with kept | same
  · exact all other kept
  · exact same ▸ placed

variable (changes : ∀ cell, property cell → ∀ c, property (cell.change c))
include changes

/-- What a change of a cell keeps, an operation on a pool keeps of all its cells. -/
theorem step_keeps (all : ∀ cell ∈ pool, property cell) (event : Event) :
    ∀ cell ∈ step pool event, property cell := by
  have at_place : ∀ {place : Nat} {cell : Cell}, pool[place]? = some cell → property cell :=
    fun found => all _ (List.mem_of_getElem? found)
  cases event with
  | change target c =>
    dsimp only [step]
    split
    next cell found => exact set_keeps all (changes _ (at_place found) c)
    next => exact all
  | clone source =>
    intro cell member
    rcases List.mem_append.mp member with kept | copied
    · exact all cell kept
    · exact at_place (Option.mem_toList.mp copied)
  | store source target =>
    dsimp only [step]
    split
    next origin cell source target =>
      exact set_keeps all (Cell.overwritten_keeps (at_place target) (at_place source)
        fun _ => Factorization.storeInto_eq)
    next => exact all
  | restore target source =>
    dsimp only [step]
    split
    next origin cell source target =>
      exact set_keeps all (Cell.overwritten_keeps (at_place target) (at_place source)
        fun _ => Factorization.restoreFrom_eq)
    next => exact all

theorem run_keeps (all : ∀ cell ∈ pool, property cell) (events : List Event) :
    ∀ cell ∈ run pool events, property cell := by
  induction events generalizing pool with
  | nil => exact all
  | cons event rest ih => exact ih (step_keeps changes all event)

end Pools

theorem run_shows (shows : ∀ cell ∈ pool, cell.Shows) (events : List Event) :
    ∀ cell ∈ run pool events, cell.Shows :=
  run_keeps (fun _ shows c => shows.change c) shows events

theorem run_tracks (tracks : ∀ cell ∈ pool, cell.Tracks) (events : List Event) :
    ∀ cell ∈ run pool events, cell.Tracks :=
  run_keeps (fun _ tracks c => tracks.change c) tracks events

/-- From identities on, every basis represents its matrix after any operations. -/
theorem run_represents (starts : ∀ cell ∈ pool, ∃ kind m config,
      0 < config.pivotTolerance ∧ cell = Cell.identity kind m config) (events : List Event) :
    ∀ cell ∈ run pool events, Represents cell.factorization cell.matrix := by
  have initial : ∀ cell ∈ pool, cell.Tracks := by
    intro cell member
    obtain ⟨kind, m, config, positive, rfl⟩ := starts cell member
    exact ⟨Factored.identity kind config, rfl, Factored.identity_tracks kind positive⟩
  intro cell member
  obtain ⟨g, shape, tracks⟩ := run_tracks initial events cell member
  rw [shape]
  exact represents tracks

/-- A chain grows to its limit in a clone that does without factors, and a basis of the other kind
refuses the state. -/
theorem run_represents_clone :
    let config : FactorConfig Extended := ⟨1 / 1000, 2⟩
    let pool := [Cell.identity .forrestTomlin 2 config, Cell.identity .denseLu 2 config]
    let last := run pool [.change 0 (.push 0 #[2, 1]), .clone 0, .change 2 (.toggle false),
      .change 2 (.push 1 #[1, 3]), .restore 1 0]
    (∀ cell ∈ last, Represents cell.factorization cell.matrix) ∧
      last.map (fun cell => (cell.factorization.chainLength,
        (cell.factorization.forward #[6, 9] 2).toOption)) =
        [(1, some #[3, 6]), (0, some #[6, 9]), (0, some #[1, 2])] := by
  intro config pool last
  have positive : 0 < config.pivotTolerance := by decide +kernel
  refine ⟨run_represents (fun cell member => ?_) _, by decide +kernel⟩
  rcases List.mem_pair.mp member with same | same
  · exact ⟨.forrestTomlin, 2, config, positive, same⟩
  · exact ⟨.denseLu, 2, config, positive, same⟩

end Runs

end ReluSolver.BasisMachine
