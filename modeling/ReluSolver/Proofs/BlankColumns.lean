import ReluSolver.Basis.Factorization
import ReluSolver.Proofs.CrashConsistency
import ReluSolver.Proofs.EquationTerms
import ReluSolver.Proofs.LuFactors

/-! The column of a variable that no equation mentions. However it is reduced or solved
for, its entries stay zero or become undefined, and neither can be a pivot. -/

namespace ReluSolver

open Extended

def Blank (a : Extended) : Prop := a = finite 0 ∨ a = undefined

namespace Blank

variable {a b : Extended}

theorem zero : Blank 0 := .inl zero_eq

theorem add (first : Blank a) (second : Blank b) : Blank (a + b) := by
  rcases first with rfl | rfl <;> rcases second with rfl | rfl <;>
    first | exact .inr rfl | exact .inl (by simp)

theorem sub (first : Blank a) (second : Blank b) : Blank (a - b) := by
  rcases first with rfl | rfl <;> rcases second with rfl | rfl <;>
    first | exact .inr rfl | exact .inl (by simp)

theorem mul (a : Extended) (second : Blank b) : Blank (a * b) := by
  rcases second with rfl | rfl <;> cases a <;> first | exact .inr rfl | exact .inl (by simp)

theorem div (first : Blank a) (b : Extended) : Blank (a / b) := by
  rcases first with rfl | rfl
  · cases b with
    | finite r =>
      by_cases zero : r = 0
      · subst zero
        exact .inr rfl
      · rw [div_finite 0 zero, zero_div]
        exact .inl rfl
    | infinity | negInfinity => exact .inl rfl
    | undefined => exact .inr rfl
  · exact .inr rfl

theorem sum {values : List Extended} (blank : ∀ a ∈ values, Blank a) : Blank (Scalar.sum values) := by
  have each : ∀ (values : List Extended) start, Blank start → (∀ a ∈ values, Blank a) →
      Blank (values.foldl (· + ·) start) := by
    intro values
    induction values with
    | nil => exact fun _ first _ => first
    | cons a rest ih =>
      intro start first blank
      exact ih _ (first.add (blank a (by simp))) fun b member => blank b (by simp [member])
  exact each values _ (.inl (by simp)) blank

theorem abs_small (blank : Blank a) {least : ℚ} (positive : 0 < least) :
    ¬ finite least ≤ Scalar.abs a := by
  rcases blank with rfl | rfl
  · simpa using positive
  · exact not_le_undefined

end Blank

section Vectors

variable {m : Nat}

def AllBlank (z : Vector Extended m) : Prop := ∀ i : Fin m, Blank (getElem z i i.isLt)

theorem AllBlank.set {z : Vector Extended m} (blank : AllBlank z) (i : Fin m) {value : Extended}
    (given : Blank value) : AllBlank (z.set i value i.isLt) := by
  intro j
  rw [Fin.getElem_fin, Vector.getElem_set]
  split
  · exact given
  · exact blank j

theorem AllBlank.fill {z : Vector Extended m} (blank : AllBlank z)
    {entry : Vector Extended m → Fin m → Extended}
    (kept : ∀ z i, AllBlank z → Blank (entry z i)) (indices : List (Fin m)) :
    AllBlank (Lu.fill entry indices z) := by
  induction indices generalizing z with
  | nil => exact blank
  | cons i rest ih => exact ih (blank.set i (kept z i blank))

theorem Lu.solve_blank (s : Lu Extended m) {y : Vector Extended m} (blank : AllBlank y) :
    AllBlank (s.solve y) := by
  have permuted : AllBlank (s.order.map (y[·])) := by
    intro i
    rw [Fin.getElem_fin, Vector.getElem_map]
    exact blank _
  have products : ∀ (z : Vector Extended m) (i : Fin m) (indices : List (Fin m)), AllBlank z →
      Blank (z[i] - Scalar.sum (indices.map fun j => s.factors[i][j] * z[j])) := by
    intro z i indices blank
    refine (blank i).sub (.sum fun a member => ?_)
    obtain ⟨j, -, rfl⟩ := List.mem_map.mp member
    exact .mul _ (blank j)
  have forward := permuted.fill (fun z i blank => products z i (before i) blank) (List.finRange m)
  exact forward.fill (fun z i blank => (products z i (after i) blank).div _) _

theorem Eta.solve_blank (e : Eta Extended m) {z : Vector Extended m} (blank : AllBlank z) :
    AllBlank (e.solve z) := by
  have pivot : Blank (z[e.pivot] / e.pivotEntry) := (blank e.pivot).div _
  intro i
  rw [Fin.getElem_fin, solve, Vector.getElem_mapIdx, solvedEntry]
  split
  · exact pivot
  · split
    · exact (blank i).sub (.mul _ pivot)
    · exact blank i

theorem Factored.forward_blank {f : Factored Extended m} {y z : Vector Extended m}
    (blank : AllBlank y) (run : f.forward y = .ok z) : AllBlank z := by
  cases f with
  | etaFile f =>
    have chain : ∀ (etas : List (Eta Extended m)) (z : Vector Extended m), AllBlank z →
        AllBlank (etas.foldl (fun z e => e.solve z) z) := by
      intro etas
      induction etas with
      | nil => exact fun _ blank => blank
      | cons e rest ih => exact fun z blank => ih _ (e.solve_blank blank)
    simp only [forward, EtaFile.forward] at run
    split at run
    · obtain rfl := Except.ok.inj run
      exact chain _ _ (f.factors.solve_blank blank)
    · obtain ⟨factors, -, run⟩ := bind_eq_ok.mp run
      obtain rfl := Except.ok.inj run
      exact factors.solve_blank blank
  | dense f =>
    obtain ⟨factors, -, run⟩ := bind_eq_ok.mp run
    obtain rfl := Except.ok.inj run
    exact factors.solve_blank blank

theorem Factorization.forward_blank {f : Factorization Extended} {y solved : Array Extended}
    {size : Nat} (blank : ∀ a ∈ y, Blank a) (run : f.forward y size = .ok solved) :
    ∀ a ∈ solved, Blank a := by
  obtain ⟨vector, made, run⟩ := bind_eq_ok.mp run
  obtain ⟨_, -, run⟩ := bind_eq_ok.mp run
  obtain ⟨z, forward, run⟩ := bind_eq_ok.mp run
  obtain rfl := Except.ok.inj run
  unfold toVector at made
  split at made
  next length =>
    obtain rfl := Except.ok.inj made
    have each := Factored.forward_blank (fun i => blank _ (Array.getElem_mem _)) forward
    intro a member
    obtain ⟨i, inside, rfl⟩ := Array.mem_iff_getElem.mp member
    exact each ⟨i, by simpa using inside⟩
  next => cases made

end Vectors

namespace CrashBasis

variable {n : Nat} {k : Fin n}

theorem denseRow_blank {e : Equation Extended} (absent : ¬ e.Mentions k) :
    Blank ((denseRow n e).get k) := by
  have each : ∀ (addends : List (Addend Extended)) (row : Vector Extended n),
      (∀ a ∈ addends, a.var ≠ k) → (addends.foldl (fun (row : Vector Extended n) a =>
        if h : a.var < n then row.set a.var (row[a.var] + a.coefficient) else row) row)[k] = row[k] := by
    intro addends
    induction addends with
    | nil => exact fun _ _ => rfl
    | cons a rest ih =>
      intro row apart
      rw [List.foldl_cons, ih _ fun b member => apart b (by simp [member])]
      split
      · rw [Fin.getElem_fin, Vector.getElem_set_ne _ _ (apart a (by simp))]
        rfl
      · rfl
  change Blank (denseRow n e)[k]
  rw [denseRow, each e.addends _ fun a member same => absent ⟨a, member, same⟩]
  simpa using Blank.zero

theorem eliminate_blank {row : Vector Extended n × Extended} {pivot : Reduced Extended n}
    (first : Blank (row.1.get k)) (second : Blank (pivot.entries.get k)) :
    Blank ((eliminate row pivot).1.get k) := by
  change Blank (eliminate row pivot).1[k]
  unfold eliminate
  dsimp only
  split
  · exact first
  · rw [Fin.getElem_fin, Vector.getElem_set]
    split
    · exact .zero
    · rw [Vector.getElem_zipWith]
      exact first.sub (.mul _ second)

theorem foldl_eliminate_blank {pivots : List (Reduced Extended n)}
    {row : Vector Extended n × Extended} (first : Blank (row.1.get k))
    (rest : ∀ pivot ∈ pivots, Blank (pivot.entries.get k)) :
    Blank ((pivots.foldl eliminate row).1.get k) := by
  induction pivots generalizing row with
  | nil => exact first
  | cons pivot others ih =>
    exact ih (eliminate_blank first (rest pivot (by simp))) fun other member =>
      rest other (by simp [member])

theorem normalize_blank {row : Vector Extended n} {scalar : Extended} {column : Fin n}
    (other : column ≠ k) (blank : Blank (row.get k)) :
    Blank ((normalize row scalar column).entries.get k) := by
  change Blank (normalize row scalar column).entries[k]
  rw [normalize, Fin.getElem_fin, Vector.getElem_set_ne _ _ fun equal => other (Fin.ext equal),
    Vector.getElem_map]
  exact blank.div _

variable {q : Query Extended} {t : Tolerance Extended} {epsilon : ℚ}
  (same : t.epsilon = finite epsilon) (positive : 0 ≤ epsilon)
include same positive

theorem pivotColumn?_not_blank {row : Vector Extended n} {column : Fin n}
    (chosen : pivotColumn? q t row = some column) : ¬ Blank (row.get column) := by
  unfold pivotColumn? at chosen
  dsimp only at chosen
  split at chosen
  · cases chosen
  · have member := (List.mem_filter.mp (firstBest?_mem chosen)).2
    rw [Bool.and_eq_true, decide_eq_true_eq] at member
    rintro (zero | nothing)
    · have tiny : t.isZero (row.get column) = true := by
        rw [show row.get column = finite 0 from zero, Tolerance.isZero_finite same]
        simpa using positive
      rw [tiny] at member
      exact Bool.false_ne_true member.2
    · rw [show row.get column = undefined from nothing] at member
      exact not_le_undefined member.1

theorem select_not_basic {v : Fin q.size} {equations : List (Equation Extended)}
    (absent : ∀ e ∈ equations, ¬ e.Mentions v)
    {kept : List (Reduced Extended q.size × BasisRow Extended)} {index : Nat}
    (apart : ∀ p ∈ kept, Blank p.1.entries[v] ∧ p.2.basic ≠ v)
    {rows : List (BasisRow Extended)} (run : select q t kept index equations = .ok rows) :
    ∀ row ∈ rows, row.basic ≠ v := by
  induction equations generalizing kept index with
  | nil =>
    obtain rfl := Except.ok.inj run
    intro row member
    obtain ⟨p, old, rfl⟩ := List.mem_map.mp member
    exact (apart p old).2
  | cons e rest ih =>
    have later : ∀ o ∈ rest, ¬ o.Mentions v := fun o member => absent o (by simp [member])
    have blank : Blank ((kept.map (·.1)).foldl eliminate (denseRow q.size e, e.scalar)).1[v] := by
      refine foldl_eliminate_blank (denseRow_blank (absent e (by simp))) fun pivot member => ?_
      obtain ⟨p, old, rfl⟩ := List.mem_map.mp member
      exact (apart p old).1
    unfold select at run
    dsimp only at run
    split at run
    next column chosen =>
      have other : column ≠ v := by
        rintro rfl
        exact pivotColumn?_not_blank same positive chosen blank
      refine ih later (fun p member => ?_) run
      rcases List.mem_append.mp member with old | new
      · exact apart p old
      · obtain rfl := List.mem_singleton.mp new
        exact ⟨normalize_blank other blank, fun equal => other (Fin.ext equal)⟩
    next =>
      split at run
      · exact ih later apart run
      · cases run

theorem compute_not_basic {b : CrashBasis Extended} (run : compute q t = .ok b) {v : Variable}
    (absent : ∀ e ∈ q.equations, ¬ e.Mentions v) : v ∉ b.basic := by
  intro member
  obtain ⟨row, inside, rfl⟩ := List.mem_map.mp member
  have known := ((compute_spec run).1 row inside).2
  obtain ⟨rows, selected, made⟩ := bind_eq_ok.mp run
  obtain rfl := Except.ok.inj made
  exact select_not_basic (v := ⟨row.basic, known⟩) same positive absent (by simp) selected row inside rfl

end CrashBasis

end ReluSolver
