import ReluSolver.Proofs.FaultlessSearch
import ReluSolver.Proofs.InverseRows
import ReluSolver.Proofs.LuDecomposition

/-! Exchanging basic variables keeps the factorization in step: column by column it is that
of the variables that are basic now. Solving for them then satisfies the basis
equations, whatever the values of the other variables are. -/

namespace ReluSolver

open Extended Matrix

theorem BasisMachine.vectorOf_ofFn {m : Nat} (d : Fin m → ℚ) : vectorOf m (Array.ofFn d) = d := by
  funext i
  simp [vectorOf]

namespace Equation

variable {e : Equation Extended}

theorem left_sum (x y : Variable → ℚ) : e.left (fun v => x v + y v) = e.left x + e.left y := by
  simp only [left, mul_add, List.sum_map_add]

theorem WellFormed.left_spread (formed : e.WellFormed) {m n : Nat} (known : ∀ a ∈ e.addends, a.var < n)
    (columns : Fin m → Fin n) (y : Fin m → ℚ) :
    e.left (CrashBasis.spread columns y) = ∑ k, e.rate (columns k) * y k := by
  rw [formed.left_eq_sum known, Finset.sum_range]
  exact CrashBasis.rowValue_spread (fun j => e.rate j) columns y

/-- The equation without the terms of some variables. -/
def only (e : Equation Extended) (kept : Variable → Bool) : Equation Extended :=
  ⟨e.addends.filter fun a => kept a.var, e.scalar⟩

theorem WellFormed.only (formed : e.WellFormed) (kept : Variable → Bool) : (e.only kept).WellFormed where
  distinct := formed.distinct.sublist (List.filter_sublist.map _)
  coefficients := fun a member => formed.coefficients a (List.mem_of_mem_filter member)
  scalar := formed.scalar

theorem left_only (e : Equation Extended) (kept : Variable → Bool) (x : Variable → ℚ) :
    (e.only kept).left x = e.left fun v => if kept v then x v else 0 := by
  obtain ⟨addends, scalar⟩ := e
  induction addends with
  | nil => rfl
  | cons a rest ih =>
    rw [left_cons, ← ih]
    by_cases keeps : kept a.var = true
    · have same : only ⟨a :: rest, scalar⟩ kept = ⟨a :: (only ⟨rest, scalar⟩ kept).addends, scalar⟩ := by
        simp [only, keeps]
      rw [same, left_cons, if_pos keeps]
      rfl
    · have same : only ⟨a :: rest, scalar⟩ kept = only ⟨rest, scalar⟩ kept := by simp [only, keeps]
      rw [same, if_neg keeps, mul_zero, zero_add]

end Equation

section Push

variable {α : Type} [Scalar α] {m : Nat} {cause : FactorError}

theorem EtaFile.refactorizeAs_error {f : EtaFile α m} {basis : Square α m}
    (run : f.refactorizeAs basis = .error cause) : ∃ column, cause = .singular column := by
  rw [refactorizeAs_eq] at run
  rcases bind_eq_error.mp run with refused | ⟨_, -, made⟩
  · exact Lu.factorize_error refused
  · cases made

theorem EtaFile.push_error {f : EtaFile α m} {e : Eta α m} (run : f.push e = .error cause) :
    ∃ column, cause = .singular column := by
  rw [push_eq] at run
  split at run
  · exact refactorizeAs_error run
  · cases run

theorem EtaFile.push_enabled {f next : EtaFile α m} {e : Eta α m} (run : f.push e = .ok next) :
    next.enabled = f.enabled := by
  rw [push_eq] at run
  split at run
  · rw [refactorize, refactorizeAs_eq] at run
    obtain ⟨factors, -, same⟩ := bind_eq_ok.mp run
    exact Except.ok.inj same ▸ rfl
  · exact Except.ok.inj run ▸ rfl

theorem DenseBasis.replaceBasis_error {f : DenseBasis α m} {basis : Square α m}
    (run : f.replaceBasis basis = .error cause) : ∃ column, cause = .singular column := by
  rw [replaceBasis_eq] at run
  rcases bind_eq_error.mp run with refused | ⟨_, -, made⟩
  · exact Lu.factorize_error refused
  · cases made

theorem DenseBasis.replaceBasis_enabled {f next : DenseBasis α m} {basis : Square α m}
    (run : f.replaceBasis basis = .ok next) : next.enabled = f.enabled := by
  rw [replaceBasis_eq] at run
  obtain ⟨factors, -, same⟩ := bind_eq_ok.mp run
  exact Except.ok.inj same ▸ rfl

theorem Factored.push_error {f : Factored α m} {e : Eta α m} (run : f.push e = .error cause) :
    ∃ column, cause = .singular column := by
  cases f with
  | etaFile f =>
    exact EtaFile.push_error (map_eq_error.mp run)
  | dense f =>
    exact DenseBasis.replaceBasis_error (map_eq_error.mp run)

theorem Factored.push_enabled {f next : Factored α m} {e : Eta α m} (run : f.push e = .ok next) :
    next.enabled = f.enabled := by
  cases f with
  | etaFile f =>
    obtain ⟨g, made, rfl⟩ := map_eq_ok.mp run
    exact EtaFile.push_enabled made
  | dense f =>
    obtain ⟨g, made, rfl⟩ := map_eq_ok.mp run
    exact DenseBasis.replaceBasis_enabled made

namespace Factorization

variable {f next : Factorization α} {k : Nat} {column : Array α}

theorem push_enabled (run : f.push k column = .ok next) : next.enabled = f.enabled := by
  obtain ⟨_, -, run⟩ := bind_eq_ok.mp run
  obtain ⟨_, -, run⟩ := bind_eq_ok.mp run
  obtain ⟨pushed, made, same⟩ := bind_eq_ok.mp run
  obtain rfl := Except.ok.inj same
  exact Factored.push_enabled made

theorem push_error (whole : column.size = f.dimension) (inside : k < f.dimension)
    (run : f.push k column = .error cause) : ∃ column, cause = .singular column := by
  have given : toVector f.dimension column = .ok ⟨column, whole⟩ := dif_pos whole
  rcases bind_eq_error.mp run with refused | ⟨entries, -, run⟩
  · rw [given] at refused
    cases refused
  rcases bind_eq_error.mp run with refused | ⟨e, -, run⟩
  · rw [Eta.make, dif_pos inside] at refused
    split at refused
    · cases refused
    · exact ⟨k, (Except.error.inj refused).symm⟩
  rcases bind_eq_error.mp run with refused | ⟨_, -, made⟩
  · exact Factored.push_error refused
  · cases made

end Factorization

end Push

namespace Problem

variable {p : Problem Extended} {f next : Factorization Extended} {basic : Array Variable}

/-- A factorization is that of the columns of the basic variables. -/
structure Fits (p : Problem Extended) (f : Factorization Extended) (basic : Array Variable) : Prop
    extends p.Slots basic where
  tracks : ∃ g : Factored Extended p.basis.dimension, f = ⟨_, g⟩ ∧ g.Tracks (p.basis.columns basic)

theorem Fits.dimension (fits : p.Fits f basic) : f.dimension = p.basis.dimension := by
  obtain ⟨g, rfl, -⟩ := fits.tracks
  rfl

theorem Fits.represents (fits : p.Fits f basic) :
    BasisMachine.Represents f (p.basis.columns basic) := by
  obtain ⟨g, rfl, tracks⟩ := fits.tracks
  exact BasisMachine.represents tracks

theorem Fits.distinct (fits : p.Fits f basic) : basic.toList.Nodup :=
  CrashBasis.nodup_of_columns fits.size fits.represents.invertible

theorem column_eq (within : p.basis.Within p.query) (x : Variable) :
    (p.basis.column x).toArray =
      (Array.ofFn fun i : Fin p.basis.dimension => (p.basis.rows[i]).equation.rate x).map finite := by
  apply Array.ext
  · simp [CrashBasis.column]
  · intro i first second
    have inside : i < p.basis.dimension := by simpa [CrashBasis.column] using first
    simpa [CrashBasis.column] using (within.formed _ (List.getElem_mem inside)).coefficientOf_eq x

theorem Fits.push (fits : p.Fits f basic) (within : p.basis.Within p.query) {k : Nat}
    (inside : k < p.basis.dimension) {x : Variable} (known : x < p.query.size)
    {column : Array Extended}
    (solved : f.forward (p.basis.column x).toArray p.basis.dimension = .ok column)
    (run : f.push k column = .ok next) : p.Fits next (basic.setIfInBounds k x) := by
  let rates : Array ℚ := Array.ofFn fun i : Fin p.basis.dimension => (p.basis.rows[i]).equation.rate x
  rw [column_eq within] at solved
  obtain ⟨-, d, rfl, unique⟩ := fits.represents.forward rates _ _ solved
  have solves : p.basis.columns basic *ᵥ d = BasisMachine.vectorOf _ rates := (unique d).mpr rfl
  obtain ⟨g, rfl, tracks⟩ := fits.tracks
  have performed : BasisMachine.Change.perform ⟨_, g⟩ (.push k (Array.ofFn d)) = .ok next := by
    rw [BasisMachine.Change.perform, Array.map_ofFn]
    exact run
  obtain ⟨h, rfl, after⟩ := BasisMachine.Change.perform_tracks tracks performed
  refine ⟨⟨Array.size_setIfInBounds.trans fits.size, ?_⟩, h, rfl, ?_⟩
  · intro y member
    rcases Array.mem_or_eq_of_mem_setIfInBounds member with old | rfl
    · exact fits.known y old
    · exact known
  · have exchanged : BasisMachine.Change.onMatrix (p.basis.columns basic) (.push k (Array.ofFn d)) =
        p.basis.columns (basic.setIfInBounds k x) := by
      rw [BasisMachine.Change.onMatrix, dif_pos inside,
        CrashBasis.columns_exchanged fits.size ⟨k, inside⟩, mul_updateCol, mul_one,
        BasisMachine.vectorOf_ofFn, solves, BasisMachine.vectorOf_ofFn]
    rwa [exchanged] at after

theorem Fits.start (within : p.basis.Within p.query) (regular : IsUnit p.basis.rates)
    (reached : BasisMachine.Reached f p.basis.rates) (positive : 0 < f.factored.config.pivotTolerance) :
    p.Fits f p.basis.basic.toArray := by
  obtain ⟨g, rfl, shows⟩ := reached.shows regular
  refine ⟨⟨by simp [CrashBasis.basic], fun x member => ?_⟩, g, rfl, positive, ?_⟩
  · obtain ⟨row, inside, rfl⟩ := List.mem_map.mp (List.mem_toArray.mp member)
    exact within.basic row inside
  · rwa [CrashBasis.columns_basic]

theorem findEntering_found {s : Store Extended} {k attempts left : Nat} {candidates : List Variable}
    {x : Variable} {column : Array Extended}
    (run : p.findEntering f s basic k attempts candidates = .ok (some (x, column), left)) :
    x ∈ candidates ∧ x ∉ basic ∧
      f.forward (p.basis.column x).toArray p.basis.dimension = .ok column := by
  induction candidates generalizing attempts with
  | nil => cases run
  | cons y rest ih =>
    have later := fun {attempts} run => And.imp_left (List.mem_cons_of_mem y) (@ih attempts run)
    obtain ⟨fixed, -, run⟩ := bind_eq_ok.mp run
    split at run
    · exact later run
    next free =>
      split at run
      · cases run
      · obtain ⟨found, searched, run⟩ := bind_eq_ok.mp run
        cases found with
        | none => exact later run
        | some found =>
          obtain ⟨rfl, rfl⟩ : y = x ∧ found = column := by
            simpa using (Prod.mk.inj (Except.ok.inj run)).1
          refine ⟨by simp, fun member => free (by simp [member]), ?_⟩
          unfold exchangeColumn? at searched
          split at searched
          · cases searched
          next column solved =>
            obtain ⟨a, -, chosen⟩ := bind_eq_ok.mp searched
            split at chosen
            · rwa [← Option.some.inj (Except.ok.inj chosen)]
            · cases Except.ok.inj chosen

open Searching

/-- The values of the variables that are not basic, and zero for the basic ones. -/
def outside (basic : Array Variable) (x : Variable → ℚ) (v : Variable) : ℚ :=
  if !basic.contains v then x v else 0

theorem remainder_eq {e : Equation Extended} (formed : e.WellFormed) {values : Assignment Extended}
    {x : Variable → ℚ}
    (given : ∀ v, e.Mentions v → v ∉ basic → values[v]? = some (finite (x v))) :
    remainder basic values e = .ok (finite (e.right - e.left (outside basic x))) := by
  let others := e.only fun v => !basic.contains v
  have products : others.addends.mapM (fun a => return a.coefficient * (← fetch values a.var)) =
      (.ok (others.addends.map fun a => a.coefficient * finite (x a.var)) : Except Fault _) := by
    apply mapM_pure
    intro a member
    obtain ⟨inside, free⟩ := List.mem_filter.mp member
    rw [fetch_eq_ok.mpr (given a.var ⟨a, inside, rfl⟩ (by simpa using free))]
    rfl
  have total := (formed.only fun v => !basic.contains v).sum_eq x
  refine bind_eq_ok.mpr ⟨_, products, ?_⟩
  rw [total, formed.scalar_eq, sub_finite, Equation.left_only]
  rfl

theorem foldlM_replace {pairs : List (Variable × Extended)} (distinct : (pairs.map (·.1)).Nodup)
    {values last : Assignment Extended}
    (run : pairs.foldlM (fun values (x, value) => replace values x value) values = .ok last) :
    (∀ pair ∈ pairs, last[pair.1]? = some pair.2) ∧
      ∀ v, v ∉ pairs.map (·.1) → last[v]? = values[v]? := by
  induction pairs generalizing values with
  | nil =>
    obtain rfl := Except.ok.inj run
    exact ⟨nofun, fun _ _ => rfl⟩
  | cons pair rest ih =>
    obtain ⟨x, value⟩ := pair
    obtain ⟨apart, distinct⟩ := List.nodup_cons.mp distinct
    obtain ⟨next, placed, run⟩ := bind_eq_ok.mp run
    obtain ⟨inside, rfl⟩ := replace_eq_ok.mp placed
    obtain ⟨written, kept⟩ := ih distinct run
    refine ⟨List.forall_mem_cons.mpr ⟨?_, written⟩, fun v absent => ?_⟩
    · rw [kept x apart, Array.getElem?_setIfInBounds_self_of_lt inside]
    · rw [List.map_cons, List.mem_cons, not_or] at absent
      rw [kept v absent.2, Array.getElem?_setIfInBounds_ne (Ne.symm absent.1)]

def SolvesRows (p : Problem Extended) (values : Assignment Extended) : Prop :=
  ∃ x : Variable → ℚ, (∀ v < p.query.size, values[v]? = some (finite (x v))) ∧
    ∀ row ∈ p.basis.rows, row.equation.Holds x

/-- The variables that are not basic keep their values, and the basic ones are solved for. -/
def Completes (p : Problem Extended) (basic : Array Variable) (values solved : Assignment Extended) :
    Prop :=
  (∀ v, v ∉ basic → solved[v]? = values[v]?) ∧ p.SolvesRows solved

def gap (basic : Array Variable) (x : Variable → ℚ) (row : BasisRow Extended) : ℚ :=
  row.equation.right - row.equation.left (outside basic x)

theorem holds_of_solves (within : p.basis.Within p.query)
    {places : Fin p.basis.dimension → Fin p.query.size}
    (placed : ∀ k : Fin p.basis.dimension, basic.getD k 0 = places k)
    {x : Variable → ℚ} {z : Fin p.basis.dimension → ℚ}
    (solves : ∀ i, (p.basis.columns basic *ᵥ z) i = gap basic x p.basis.rows[i])
    {row : BasisRow Extended} (member : row ∈ p.basis.rows) :
    row.equation.Holds fun v => outside basic x v + CrashBasis.spread places z v := by
  obtain ⟨i, inside, rfl⟩ := List.mem_iff_getElem.mp member
  have formed := within.formed _ member
  have total : ∑ k, (p.basis.rows[i]).equation.rate (places k) * z k =
      gap basic x p.basis.rows[i] := by
    refine Eq.trans (Finset.sum_congr rfl fun k _ => ?_) (solves ⟨i, inside⟩)
    rw [← placed k]
    rfl
  rw [formed.holds_iff, Equation.left_sum, formed.left_spread (within.known _ member), total, gap]
  ring

theorem Fits.completes (within : p.basis.Within p.query) (fits : p.Fits f basic)
    {values solved : Assignment Extended} {x : Variable → ℚ}
    (given : ∀ v < p.query.size, v ∉ basic → values[v]? = some (finite (x v)))
    {z : Fin p.basis.dimension → ℚ}
    (solves : ∀ i, (p.basis.columns basic *ᵥ z) i = gap basic x p.basis.rows[i])
    (written : (List.zip basic.toList (Array.ofFn fun i => finite (z i)).toList).foldlM
      (fun values (x, value) => replace values x value) values = .ok solved) :
    p.Completes basic values solved := by
  have placed (k : Fin p.basis.dimension) : k.val < basic.size :=
    Nat.lt_of_lt_of_eq k.isLt fits.size.symm
  let places (k : Fin p.basis.dimension) : Fin p.query.size :=
    ⟨getElem basic k.val (placed k), fits.known _ (Array.getElem_mem (placed k))⟩
  have injective : Function.Injective places := by
    intro j k same
    have equal : getElem basic j.val (placed j) = getElem basic k.val (placed k) := congrArg Fin.val same
    rw [← Array.getElem_toList, ← Array.getElem_toList] at equal
    exact Fin.ext (fits.distinct.getElem_inj_iff.mp equal)
  have keys : (List.zip basic.toList (Array.ofFn fun i => finite (z i)).toList).map (·.1) =
      basic.toList := List.map_fst_zip (by simp [fits.size])
  obtain ⟨there, kept⟩ := foldlM_replace (by rw [keys]; exact fits.distinct) written
  rw [keys] at kept
  refine ⟨fun v absent => kept v (by simpa using absent),
    fun v => outside basic x v + CrashBasis.spread places z v, fun v known => ?_, fun row member => ?_⟩
  · dsimp only
    by_cases member : v ∈ basic
    · obtain ⟨k, inside, rfl⟩ := Array.mem_iff_getElem.mp member
      have small : k < p.basis.dimension := Nat.lt_of_lt_of_eq inside fits.size
      have pair : (basic[k], finite (z ⟨k, small⟩)) ∈
          List.zip basic.toList (Array.ofFn fun i => finite (z i)).toList :=
        List.mem_iff_getElem.mpr ⟨k, by simp [inside, small], by simp⟩
      have own := CrashBasis.spread_self injective z ⟨k, small⟩
      have zero : outside basic x basic[k] = 0 := by simp [outside]
      rw [there _ pair, zero, zero_add]
      exact congrArg (fun r => some (finite r)) own.symm
    · have zero : CrashBasis.spread places z v = 0 := by
        refine CrashBasis.spread_absent (fun k same => member ?_) z
        exact same ▸ Array.getElem_mem (placed k)
      rw [kept v (by simpa using member), given v known member, zero, add_zero]
      simp [outside, member]
  · exact holds_of_solves within (fun k => by simp [places, placed k]) solves member

/-- Solving for the basic variables satisfies the rows. It is refused only where the basis has to be
factorized for it. -/
theorem solveBasics_completes (within : p.basis.Within p.query) (fits : p.Fits f basic)
    {s : Session Extended} (factored : s.factorization = some f) {values : Assignment Extended}
    (whole : p.Whole values)
    (rational : ∀ v < p.query.size, v ∉ basic → ∃ r : ℚ, values[v]? = some (finite r)) :
    Ends (· = s) (p.solveBasics basic values)
      (fun solved t => t = s ∧ p.Whole solved ∧ p.Completes basic values solved)
      fun _ _ => f.enabled = false := by
  let x (v : Variable) : ℚ := (values.getD v 0).toRat
  have given : ∀ v < p.query.size, v ∉ basic → values[v]? = some (finite (x v)) := by
    intro v known free
    obtain ⟨r, found⟩ := rational v known free
    simp [x, found]
  have gaps : p.basis.rows.mapM (fun row => remainder basic values row.equation) =
      (.ok (p.basis.rows.map fun row => finite (gap basic x row)) : Except Fault _) := by
    apply mapM_pure
    intro row member
    refine remainder_eq (within.formed row member) ?_
    rintro v ⟨a, inside, rfl⟩ free
    exact given _ (within.known row member a inside) free
  have shape : (p.basis.rows.map fun row => finite (gap basic x row)).toArray =
      (p.basis.rows.map (gap basic x)).toArray.map finite := by simp
  apply Ends.get_bind
  rintro _ rfl
  rw [factored]
  dsimp only
  split
  next empty =>
    have none : basic = #[] := by simpa using empty
    have rows : p.basis.rows = [] := List.length_eq_zero_iff.mp (by simpa [none] using fits.size.symm)
    exact .pure fun _ same =>
      ⟨same, whole, fun _ _ => rfl, x, fun v known => given v known (by simp [none]), by simp [rows]⟩
  next =>
    apply ofFault_ok gaps
    rw [shape]
    cases forward : f.forward ((p.basis.rows.map (gap basic x)).toArray.map finite) basic.size with
    | error cause =>
      have disabled : f.enabled = false := by
        refine Bool.eq_false_iff.mpr fun enabled => ?_
        obtain ⟨⟨out, answered⟩, -⟩ := fits.represents.answers enabled
          (p.basis.rows.map (gap basic x)).toArray (by simp)
        rw [fits.size, answered] at forward
        cases forward
      exact Ends.through (fun _ _ => False) (.throw fun _ _ => disabled) fun _ _ => False.elim
    | ok out =>
      obtain ⟨-, z, rfl, unique⟩ := fits.represents.forward _ _ _ forward
      apply Ends.through fun value t => value = Array.ofFn (fun i => finite (z i)) ∧ t = _
      · exact .pure fun _ same => ⟨rfl, same⟩
      intro value
      apply Ends.from_state
      rintro _ ⟨rfl, rfl⟩
      obtain ⟨solved, written, size⟩ := fits.write_total (Array.ofFn fun i => finite (z i)) whole
      rw [written]
      refine .pure fun _ same => ⟨same, size, fits.completes within given (fun i => ?_) written⟩
      rw [(unique z).mpr rfl]
      simp [BasisMachine.vectorOf]

end Problem

end ReluSolver
