import ReluSolver.Proofs.EquationTerms
import ReluSolver.Proofs.PropagationSoundness
import ReluSolver.Proofs.StoreNarrowing
import ReluSolver.Proofs.VariableFates
import ReluSolver.Presolve.Simplify

/-! The reductions that simplify a query, one by one. They keep a draft tidy, and what
satisfies a reduced draft, up to the tolerance, satisfies the one before. -/

namespace ReluSolver

open Extended

namespace Presolve

section Steps

variable {α : Type} [Scalar α] {q : Query α} {t : Tolerance α}

/-- The drafts that the reductions make of one. -/
inductive Reduces (q : Query α) (t : Tolerance α) (start : Draft α) : Draft α → Prop where
  | refl : Reduces q t start start
  | tighten {d : Draft α} {s : Store α} (before : Reduces q t start d)
      (tightened : d.store.Tightened s) : Reduces q t start { d with store := s }
  | fix {d : Draft α} {v : Variable} {value : α} (before : Reduces q t start d)
      (found : fixedAt? q t d v = some value) :
      Reduces q t start
        { d with equations := d.equations.map (·.fix v value), map := d.map.fix v value }
  | merge {d : Draft α} {source target : Variable} {bounds : Interval α} {outcome : Outcome}
      {s : Store α} (before : Reduces q t start d)
      (found : d.equations.findSome? (aliasPair? q t) = some (source, target))
      (known : d.store.interval source = .ok bounds)
      (tightened : (Store.tightenBounds target bounds : Store.Action Fault α Outcome) d.store =
        .ok outcome s)
      (feasible : outcome ≠ .infeasible) :
      Reduces q t start ⟨s, d.equations.map (·.merge source target), d.map.merge source target⟩
  | drop {d : Draft α} (before : Reduces q t start d)
      (consistent : d.equations.any (fun e => e.isEmpty && !t.isZero e.scalar) = false) :
      Reduces q t start { d with equations := d.equations.filter (!·.isEmpty) }

variable {start d last : Draft α}

theorem Reduces.fixVariables (before : Reduces q t start d) :
    Reduces q t start (fixVariables q t d) := by
  unfold Presolve.fixVariables
  generalize q.allVariables = vars
  induction vars generalizing d with
  | nil => exact before
  | cons v rest ih =>
    rw [List.foldl_cons]
    apply ih
    unfold fixVariable
    split
    next value found => exact before.fix found
    next => exact before

theorem Reduces.mergePair (before : Reduces q t start d) (run : mergePair q t d = .ok last) :
    Reduces q t start last := by
  unfold Presolve.mergePair at run
  split at run
  · exact Except.ok.inj run ▸ before
  next source target found =>
    obtain ⟨bounds, known, run⟩ := bind_eq_ok.mp run
    split at run
    · cases run
    · cases run
    next outcome s feasible tightened =>
      rw [← Except.ok.inj run]
      exact before.merge found (mapError_eq_ok.mp known) tightened feasible

theorem Reduces.dropEmpty (before : Reduces q t start d) (run : dropEmpty t d = .ok last) :
    Reduces q t start last := by
  unfold Presolve.dropEmpty at run
  split at run
  · cases run
  next consistent =>
    rw [← Except.ok.inj run]
    exact before.drop (by simpa using consistent)

theorem rounds_stuck {effort : Effort α} {fuel : Nat} {cause : Setback} {s : Store α}
    (stuck : effort.propagate d.equations [] q.relus d.store = .error cause s) :
    rounds q effort (fuel + 1) d = .error cause := by
  rw [rounds, stuck]
  rfl

theorem rounds_propagated {effort : Effort α} {fuel news : Nat} {s : Store α}
    (propagated : effort.propagate d.equations [] q.relus d.store = .ok news s) :
    rounds q effort (fuel + 1) d = (do
      let merged ← mergePair q effort.tolerance (fixVariables q effort.tolerance { d with store := s })
      let next ← dropEmpty effort.tolerance merged
      if remaining next < remaining d then rounds q effort fuel next else return next) := by
  rw [rounds, propagated]
  rfl

theorem rounds_reduces {effort : Effort α} {fuel : Nat}
    (before : Reduces q effort.tolerance start d) (run : rounds q effort fuel d = .ok last) :
    Reduces q effort.tolerance start last := by
  induction fuel generalizing d with
  | zero => cases run
  | succ fuel ih =>
    have kept := effort.propagate_tightened d.store d.equations [] q.relus d.store .refl
    cases propagated : effort.propagate d.equations [] q.relus d.store with
    | error cause s =>
      rw [rounds_stuck propagated] at run
      cases run
    | ok news s =>
      rw [propagated] at kept
      rw [rounds_propagated propagated] at run
      obtain ⟨merged, mergedRun, run⟩ := bind_eq_ok.mp run
      obtain ⟨next, nextRun, run⟩ := bind_eq_ok.mp run
      have reached := ((before.tighten kept).fixVariables.mergePair mergedRun).dropEmpty nextRun
      split at run
      · exact ih reached run
      · exact Except.ok.inj run ▸ reached

end Steps

section Found

variable {α : Type} [Scalar α] {q : Query α} {t : Tolerance α} {d : Draft α}

theorem fixedAt?_spec {v : Variable} {value : α} (found : fixedAt? q t d v = some value) :
    isProtected q v = false ∧ d.map.isKept v = true ∧ ∃ c, d.store.cells[v]? = some c ∧
      value = c.bounds.lower ∧ Scalar.isFinite value = true ∧ c.isFixed t = true := by
  unfold fixedAt? at found
  split at found
  · cases found
  next free =>
    have parts : isProtected q v = false ∧ d.map.isKept v = true := by simpa using free
    split at found
    next c cell =>
      split at found
      next ready =>
        obtain rfl := Option.some.inj found
        rw [Bool.and_eq_true] at ready
        exact ⟨parts.1, parts.2, c, cell, rfl, ready.1, ready.2⟩
      next => cases found
    next => cases found

theorem aliasPair?_spec {e : Equation α} {source target : Variable}
    (found : aliasPair? q t e = some (source, target)) :
    isProtected q source = false ∧ isProtected q target = false ∧ ∃ first second : Addend α,
      e.addends = [first, second] ∧ first.var = target ∧ second.var = source ∧
      t.isZero e.scalar = true ∧ t.areEqual first.coefficient (-second.coefficient) = true := by
  unfold aliasPair? at found
  split at found
  next first second shape =>
    dsimp only at found
    split at found
    next ready =>
      simp only [Bool.and_eq_true, Bool.not_eq_eq_eq_not, Bool.not_true] at ready
      obtain ⟨rfl, rfl⟩ := Prod.mk.inj (Option.some.inj found)
      exact ⟨ready.2, ready.1.2, first, second, shape, rfl, rfl, ready.1.1.1, ready.1.1.2⟩
    next => cases found
  next => cases found

end Found

section Order

variable {α : Type} [Scalar α] {q : Query α} {t : Tolerance α} {d start last : Draft α}

/-- The equations are about kept variables only, and each of them names a variable once. Variables
that have to stay are kept, and all chains of merged variables end. -/
structure Draft.Orderly (q : Query α) (d : Draft α) : Prop where
  size : d.map.size = q.size
  distinct : ∀ e ∈ d.equations, e.vars.Nodup
  kept : ∀ e ∈ d.equations, ∀ v ∈ e.vars, d.map.isKept v = true
  shielded : ∀ v, v < q.size → isProtected q v = true → d.map.isKept v = true
  settled : d.map.Settled

omit [Scalar α] in
theorem Draft.orderly_start {s : Store α} (distinct : ∀ e ∈ q.equations, e.vars.Nodup) :
    (⟨s, q.equations, .identity q.size⟩ : Draft α).Orderly q := by
  have kept : ∀ v, v < q.size → (VariableMap.identity q.size : VariableMap α).isKept v = true :=
    fun v known => VariableMap.isKept_identity.mpr known
  refine ⟨by simp [VariableMap.identity, VariableMap.size], distinct, fun e member v said => ?_,
    fun v known _ => kept v known, VariableMap.identity_settled _⟩
  obtain ⟨a, inside, rfl⟩ := List.mem_map.mp said
  exact kept _ (q.equations_known e member a inside)

namespace Draft.Orderly

theorem pair (orderly : d.Orderly q) {source target : Variable}
    (found : d.equations.findSome? (aliasPair? q t) = some (source, target)) :
    source ≠ target ∧ d.map.isKept source = true ∧ d.map.isKept target = true ∧
      isProtected q source = false ∧ isProtected q target = false := by
  obtain ⟨e, member, paired⟩ := List.exists_of_findSome?_eq_some found
  obtain ⟨freeSource, freeTarget, first, second, shape, rfl, rfl, -, -⟩ := aliasPair?_spec paired
  have distinct := orderly.distinct e member
  have kept := orderly.kept e member
  simp only [Equation.vars, shape, List.map_cons, List.map_nil] at distinct kept
  refine ⟨?_, kept _ (by simp), kept _ (by simp), freeSource, freeTarget⟩
  intro same
  simp [same] at distinct

theorem fix (orderly : d.Orderly q) {v : Variable} {value : α} (found : fixedAt? q t d v = some value) :
    Orderly q { d with equations := d.equations.map (·.fix v value), map := d.map.fix v value } := by
  obtain ⟨free, kept, -⟩ := fixedAt?_spec found
  have known := VariableMap.known_of_isKept kept
  refine ⟨by simpa using orderly.size, fun e member => ?_, fun e member w said => ?_,
    fun w small shielded => ?_, orderly.settled.fix kept _⟩
  · obtain ⟨old, inside, rfl⟩ := List.mem_map.mp member
    exact (Equation.vars_fix (orderly.distinct old inside) v value).1
  · obtain ⟨old, inside, rfl⟩ := List.mem_map.mp member
    obtain ⟨other, before⟩ := (Equation.vars_fix (orderly.distinct old inside) v value).2 w said
    exact (VariableMap.isKept_fix known).mpr ⟨other, orderly.kept old inside w before⟩
  · refine (VariableMap.isKept_fix known).mpr ⟨?_, orderly.shielded w small shielded⟩
    rintro rfl
    cases free.symm.trans shielded

theorem merge (orderly : d.Orderly q) {source target : Variable} {s : Store α}
    (found : d.equations.findSome? (aliasPair? q t) = some (source, target)) :
    Orderly q ⟨s, d.equations.map (·.merge source target), d.map.merge source target⟩ := by
  obtain ⟨apart, keptSource, keptTarget, free, -⟩ := orderly.pair found
  have known := VariableMap.known_of_isKept keptSource
  refine ⟨by simpa using orderly.size, fun e member => ?_, fun e member w said => ?_,
    fun w small shielded => ?_, orderly.settled.merge keptSource keptTarget apart⟩
  · obtain ⟨old, inside, rfl⟩ := List.mem_map.mp member
    exact (Equation.vars_merge (orderly.distinct old inside) apart).1
  · obtain ⟨old, inside, rfl⟩ := List.mem_map.mp member
    obtain ⟨other, before⟩ := (Equation.vars_merge (orderly.distinct old inside) apart).2 w said
    refine (VariableMap.isKept_merge known).mpr ⟨other, ?_⟩
    rcases before with rfl | before
    · exact keptTarget
    · exact orderly.kept old inside w before
  · refine (VariableMap.isKept_merge known).mpr ⟨?_, orderly.shielded w small shielded⟩
    rintro rfl
    cases free.symm.trans shielded

end Draft.Orderly

theorem Reduces.orderly (orderly : start.Orderly q) (reduces : Reduces q t start d) : d.Orderly q := by
  induction reduces with
  | refl => exact orderly
  | tighten _ _ ih => exact ⟨ih.size, ih.distinct, ih.kept, ih.shielded, ih.settled⟩
  | fix _ found ih => exact ih.fix found
  | merge _ found _ _ _ ih => exact ih.merge found
  | drop _ _ ih =>
    exact ⟨ih.size, fun e member => ih.distinct e (List.mem_of_mem_filter member),
      fun e member => ih.kept e (List.mem_of_mem_filter member), ih.shielded, ih.settled⟩

/-- What has replaced a variable is never replaced by something else. -/
theorem Reduces.replaced (orderly : start.Orderly q) (reduces : Reduces q t start d) {v : Variable}
    (gone : start.map.isKept v = false) :
    d.map.isKept v = false ∧ d.map.fixedValue? v = start.map.fixedValue? v ∧
      d.map.target? v = start.map.target? v := by
  induction reduces with
  | refl => exact ⟨gone, rfl, rfl⟩
  | tighten _ _ ih => exact ih
  | @fix d u value _ found ih =>
    obtain ⟨-, kept, -⟩ := fixedAt?_spec found
    have known := VariableMap.known_of_isKept kept
    have other : u ≠ v := by
      rintro rfl
      cases ih.1.symm.trans kept
    dsimp only
    rw [VariableMap.fixedValue?_fix known, VariableMap.target?_fix known, if_neg other, if_neg other,
      ← Bool.not_eq_true, VariableMap.isKept_fix known, ih.1]
    exact ⟨by simp, ih.2⟩
  | @merge d source target _ _ _ before found _ _ _ ih =>
    obtain ⟨-, kept, -⟩ := (before.orderly orderly).pair found
    have known := VariableMap.known_of_isKept kept
    have other : source ≠ v := by
      rintro rfl
      cases ih.1.symm.trans kept
    dsimp only
    rw [VariableMap.fixedValue?_merge known, VariableMap.target?_merge known, if_neg other,
      if_neg other, ← Bool.not_eq_true, VariableMap.isKept_merge known, ih.1]
    exact ⟨by simp, ih.2⟩
  | drop _ _ ih => exact ih

end Order

/-- What the reductions rely on, and keep. -/
structure Draft.Tidy (q : Query Extended) (d : Draft Extended) : Prop where
  size : d.map.size = q.size
  cells : d.store.cells.size = q.size
  defined : ∀ (v : Nat) c, d.store.cells[v]? = some c →
    c.bounds.lower ≠ undefined ∧ c.bounds.upper ≠ undefined
  formed : ∀ e ∈ d.equations, e.WellFormed
  kept : ∀ e ∈ d.equations, ∀ v, e.Mentions v → d.map.isKept v = true
  shielded : ∀ v, v < q.size → isProtected q v = true → d.map.isKept v = true
  settled : d.map.Settled
  fixed : ∀ v value, d.map.fixedValue? v = some value → Scalar.isFinite value = true
  free : ∀ v target, d.map.target? v = some target → isProtected q target = false

variable {q : Query Extended} {t : Tolerance Extended} {d start : Draft Extended}

theorem Draft.Tidy.orderly (tidy : d.Tidy q) : d.Orderly q :=
  ⟨tidy.size, fun e member => (tidy.formed e member).distinct,
    fun e member v said => tidy.kept e member v (List.mem_map.mp said), tidy.shielded, tidy.settled⟩

theorem Draft.Tidy.fix (tidy : d.Tidy q) {v : Variable} {value : Extended}
    (found : fixedAt? q t d v = some value) :
    Draft.Tidy q { d with equations := d.equations.map (·.fix v value), map := d.map.fix v value } := by
  obtain ⟨-, kept, c, -, -, finiteValue, -⟩ := fixedAt?_spec found
  obtain ⟨r, rfl⟩ := isFinite_iff.mp finiteValue
  have known := VariableMap.known_of_isKept kept
  have next := tidy.orderly.fix found
  refine ⟨next.size, tidy.cells, tidy.defined, ?_,
    fun e member w said => next.kept e member w (List.mem_map.mpr said), next.shielded, next.settled, ?_, ?_⟩
  · intro e member
    obtain ⟨old, inside, rfl⟩ := List.mem_map.mp member
    exact ((tidy.formed old inside).fix_spec v r).1
  · intro w other given
    rw [VariableMap.fixedValue?_fix known] at given
    split at given
    · exact Option.some.inj given ▸ finiteValue
    · exact tidy.fixed w other given
  · intro w target given
    rw [VariableMap.target?_fix known] at given
    split at given
    · cases given
    · exact tidy.free w target given

theorem Draft.Tidy.merge (tidy : d.Tidy q) {source target : Variable} {s : Store Extended}
    (found : d.equations.findSome? (aliasPair? q t) = some (source, target))
    (narrowed : d.store.Tightened s) :
    Draft.Tidy q ⟨s, d.equations.map (·.merge source target), d.map.merge source target⟩ := by
  obtain ⟨apart, keptSource, -, -, freeTarget⟩ := tidy.orderly.pair found
  have known := VariableMap.known_of_isKept keptSource
  have next := tidy.orderly.merge (s := s) found
  refine ⟨next.size, narrowed.size_eq.trans tidy.cells, narrowed.defined tidy.defined, ?_,
    fun e member w said => next.kept e member w (List.mem_map.mpr said), next.shielded, next.settled, ?_, ?_⟩
  · intro e member
    obtain ⟨old, inside, rfl⟩ := List.mem_map.mp member
    exact ((tidy.formed old inside).merge_spec apart).1
  · intro w other given
    rw [VariableMap.fixedValue?_merge known] at given
    split at given
    · cases given
    · exact tidy.fixed w other given
  · intro w other given
    rw [VariableMap.target?_merge known] at given
    split at given
    · exact Option.some.inj given ▸ freeTarget
    · exact tidy.free w other given

/-- All reductions keep a draft tidy. -/
theorem Reduces.tidy (tidy : start.Tidy q) (reduces : Reduces q t start d) : d.Tidy q := by
  induction reduces with
  | refl => exact tidy
  | tighten _ tightened ih =>
    exact ⟨ih.size, tightened.size_eq.trans ih.cells, tightened.defined ih.defined, ih.formed, ih.kept,
      ih.shielded, ih.settled, ih.fixed, ih.free⟩
  | fix _ found ih => exact ih.fix found
  | @merge d source target bounds outcome s _ found interval tightened feasible ih =>
    exact ih.merge found ((Store.tightenAll_tightened d.store _).ok .refl tightened)
  | drop _ _ ih =>
    exact ⟨ih.size, ih.cells, ih.defined, fun e member => ih.formed e (List.mem_of_mem_filter member),
      fun e member => ih.kept e (List.mem_of_mem_filter member), ih.shielded, ih.settled, ih.fixed,
      ih.free⟩

/-- Values that agree with the map and that the bounds of the kept variables allow. -/
def Draft.Allows (t : Tolerance Extended) (d : Draft Extended) (value : Variable → Extended) : Prop :=
  d.map.Respected value ∧ ∀ v, d.map.isKept v = true → d.store.Allows t v (value v)

/-- Rational values that agree with the map and satisfy the equations up to a tolerance. -/
def Draft.Fits (epsilon : ℚ) (d : Draft Extended) (x : Variable → ℚ) : Prop :=
  d.map.Respected (fun v => finite (x v)) ∧ ∀ e ∈ d.equations, |e.residual x| ≤ epsilon

section Back

variable {epsilon : ℚ} (same : t.epsilon = finite epsilon) (positive : 0 ≤ epsilon)
include same positive

theorem within_of_isFixed {c : Cell Extended} (finiteLower : Scalar.isFinite c.bounds.lower = true)
    (fixed : c.isFixed t = true) :
    t.within c.bounds.lower c.bounds.lower c.bounds.upper = true := by
  obtain ⟨r, lower⟩ := isFinite_iff.mp finiteLower
  rw [Cell.isFixed, lower] at fixed
  rw [Tolerance.within, Tolerance.le, lower, Bool.and_eq_true, Tolerance.ge_finite same positive,
    Tolerance.ge_eq_true same positive]
  refine ⟨by linarith, ?_⟩
  cases upper : c.bounds.upper with
  | infinity => trivial
  | negInfinity | undefined =>
    rw [upper, Tolerance.areEqual, same] at fixed
    cases fixed
  | finite u =>
    rw [upper, Tolerance.areEqual_finite same positive, abs_le] at fixed
    exact le_of_sub_nonneg (by linarith [fixed.2])

theorem Reduces.allows (tidy : start.Tidy q) (reduces : Reduces q t start d)
    {value : Variable → Extended} (allows : d.Allows t value) : start.Allows t value := by
  induction reduces with
  | refl => exact allows
  | tighten _ tightened ih =>
    exact ih ⟨allows.1, fun v kept => tightened.allows same positive (allows.2 v kept)⟩
  | @fix d v a _ found ih =>
    obtain ⟨-, kept, c, cell, rfl, finiteLower, fixed⟩ := fixedAt?_spec found
    obtain ⟨respected, here⟩ := (VariableMap.fix_respected kept).mp allows.1
    refine ih ⟨respected, fun u keptBefore => ?_⟩
    by_cases other : u = v
    · intro c' found'
      obtain rfl : c = c' := Option.some.inj (cell.symm.trans (other ▸ found'))
      rw [other, here]
      exact within_of_isFixed same positive finiteLower fixed
    · exact allows.2 u ((VariableMap.isKept_fix (VariableMap.known_of_isKept kept)).mpr
        ⟨other, keptBefore⟩)
  | @merge d source target bounds outcome s before found interval tightened feasible ih =>
    have tidy := before.tidy tidy
    obtain ⟨apart, keptSource, keptTarget, -, -⟩ := tidy.orderly.pair found
    obtain ⟨respected, equal⟩ := (VariableMap.merge_respected keptSource).mp allows.1
    have stays : ∀ u, u ≠ source → d.map.isKept u = true →
        (d.map.merge source target).isKept u = true := fun u other kept =>
      (VariableMap.isKept_merge (VariableMap.known_of_isKept keptSource)).mpr ⟨other, kept⟩
    refine ih ⟨respected, fun u kept => ?_⟩
    by_cases here : u = source
    · subst here
      intro c cell
      rw [Store.interval_of_cell cell] at interval
      obtain rfl := Except.ok.inj interval
      rw [equal]
      exact Store.tightenBounds_within same positive (tidy.defined u c cell) tightened feasible
        (allows.2 target (stays target apart.symm keptTarget))
    · exact ((Store.tightenAll_tightened d.store _).ok .refl tightened).allows same positive
        (allows.2 u (stays u here kept))
  | drop _ _ ih => exact ih allows

omit positive in
theorem Reduces.fits (tidy : start.Tidy q) (reduces : Reduces q t start d) {x : Variable → ℚ}
    (fits : d.Fits epsilon x) : start.Fits epsilon x := by
  induction reduces with
  | refl => exact fits
  | tighten _ _ ih => exact ih fits
  | @fix d v a before found ih =>
    obtain ⟨-, kept, -, -, -, finiteValue, -⟩ := fixedAt?_spec found
    obtain ⟨r, rfl⟩ := isFinite_iff.mp finiteValue
    obtain ⟨respected, here⟩ := (VariableMap.fix_respected kept).mp fits.1
    refine ih ⟨respected, fun e member => ?_⟩
    have spec := ((before.tidy tidy).formed e member).fix_spec v r
    rw [← spec.2.1 x (by simpa using here)]
    exact fits.2 _ (List.mem_map_of_mem member)
  | @merge d source target bounds outcome s before found _ _ _ ih =>
    have tidy := before.tidy tidy
    obtain ⟨apart, keptSource, -⟩ := tidy.orderly.pair found
    obtain ⟨respected, equal⟩ := (VariableMap.merge_respected keptSource).mp fits.1
    refine ih ⟨respected, fun e member => ?_⟩
    rw [← ((tidy.formed e member).merge_spec apart).2.1 x (by simpa using equal)]
    exact fits.2 _ (List.mem_map_of_mem member)
  | @drop d before consistent ih =>
    refine ih ⟨fits.1, fun e member => ?_⟩
    cases empty : e.isEmpty with
    | false => exact fits.2 e (List.mem_filter.mpr ⟨member, by simp [empty]⟩)
    | true =>
      have formed := (before.tidy tidy).formed e member
      have zero : t.isZero e.scalar = true := by
        have := List.any_eq_false.mp consistent e member
        simpa [empty] using this
      rw [formed.scalar_eq, Tolerance.isZero_finite same] at zero
      rw [Equation.residual, Equation.left, List.isEmpty_iff.mp empty]
      simpa using zero

end Back

theorem Reduces.mentions (tidy : start.Tidy q) (reduces : Reduces q t start d) {v : Variable}
    (shielded : isProtected q v = true) (mentions : ∃ e ∈ start.equations, e.Mentions v) :
    ∃ e ∈ d.equations, e.Mentions v := by
  induction reduces with
  | refl => exact mentions
  | tighten _ _ ih => exact ih
  | @fix d u a before found ih =>
    obtain ⟨e, member, said⟩ := ih
    obtain ⟨free, -, -, -, -, finiteValue, -⟩ := fixedAt?_spec found
    obtain ⟨r, rfl⟩ := isFinite_iff.mp finiteValue
    refine ⟨_, List.mem_map_of_mem member,
      ((((before.tidy tidy).formed e member).fix_spec u r).2.2 v).mpr ⟨?_, said⟩⟩
    rintro rfl
    cases free.symm.trans shielded
  | @merge d source target _ _ _ before found _ _ _ ih =>
    obtain ⟨e, member, said⟩ := ih
    have tidy := before.tidy tidy
    obtain ⟨apart, -, -, freeSource, freeTarget⟩ := tidy.orderly.pair found
    refine ⟨_, List.mem_map_of_mem member,
      ((tidy.formed e member).merge_spec apart).2.2.2 v ?_ ?_ said⟩
    · rintro rfl
      cases freeSource.symm.trans shielded
    · rintro rfl
      cases freeTarget.symm.trans shielded
  | drop _ _ ih =>
    obtain ⟨e, member, said⟩ := ih
    refine ⟨e, List.mem_filter.mpr ⟨member, ?_⟩, said⟩
    obtain ⟨a, inside, -⟩ := said
    cases shape : e.addends with
    | nil =>
      rw [shape] at inside
      cases inside
    | cons => simp [Equation.isEmpty, shape]

end Presolve

end ReluSolver
