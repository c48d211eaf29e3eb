import ReluSolver.Proofs.RowSoundness

/-! Examining rows in a worklist. However the rows feed each other, an assignment that
satisfies all of them stays within the bounds, so examining them never ends in a conflict
that is not there. -/

namespace ReluSolver.Effort

open Extended

variable {effort : Effort Extended} {rows : List (Equation Extended)} {s : Store Extended}
  {x : Variable → ℚ}

/-- Bounds only get stricter, and none of them excludes an assignment within the bounds that
satisfies every row. -/
theorem examineRows_admits (tolerant : 0 ≤ effort.tolerance.epsilon)
    (slack : 0 ≤ s.tolerance.epsilon) (formed : ∀ row ∈ rows, row.WellFormed)
    (known : ∀ row ∈ rows, ∀ a ∈ row.addends, a.var < s.size)
    (inside : Store.CellsAdmit s.cells x) (hold : ∀ row ∈ rows, row.Holds x)
    (untilSaturation : Bool) :
    ∃ news last, effort.examineRows rows untilSaturation s = .ok news last ∧
      s.Tightened last ∧ last.size = s.size ∧ Store.CellsAdmit last.cells x := by
  have encloses : s.Encloses s.size x := ⟨rfl, slack, inside⟩
  have examined : Returns (Store.Encloses s.size x) (effort.examineRows rows untilSaturation)
      fun _ last => last.Encloses s.size x :=
    examineRows_encloses formed hold known tolerant untilSaturation
  obtain ⟨news, last, run, after⟩ := examined.run encloses
  have tightened := (examineRows_tightened effort s rows untilSaturation).ok .refl run
  exact ⟨news, last, run, tightened, after.size_eq, after.admits⟩

/-- Two rounds over three rows, one with a negative coefficient and one with a coefficient that
counts as zero. The bounds are half open, and so is a checkpoint. -/
theorem examineRows_admits_chain :
    let effort : Effort Extended := ⟨⟨finite (1 / 1000)⟩, 0, 3⟩
    let rows : List (Equation Extended) :=
      [⟨[⟨1, 2⟩, ⟨-2, 1⟩], 0⟩, ⟨[⟨1, 0⟩, ⟨1, 1⟩, ⟨finite (1 / 2000), 3⟩], 5⟩, ⟨[], 0⟩]
    let s : Store Extended :=
      ⟨#[⟨⟨1, infinity⟩, false, false⟩, ⟨⟨2, infinity⟩, false, false⟩, Cell.unbounded,
        ⟨⟨-2000, 0⟩, true, false⟩], ⟨[[]]⟩, .absent, ⟨0⟩⟩
    let x : Variable → ℚ := fun v => [2, 3, 6, 0].getD v 0
    (∃ news last, effort.examineRows rows true s = .ok news last ∧ s.Tightened last ∧
      last.size = s.size ∧ Store.CellsAdmit last.cells x) ∧
    (match effort.examineRows rows true s with
      | .ok news last => some (news, last.cells.map fun c => (c.bounds.lower, c.bounds.upper))
      | .error _ _ => none) = some (4, #[(1, 4), (2, 5), (4, 10), (-2000, 0)]) := by
  intro effort rows s x
  have formed : ∀ row ∈ rows, row.WellFormed := by decide +kernel
  have hold : ∀ row ∈ rows, row.Holds x := by
    unfold Equation.Holds
    decide +kernel
  have inside : Store.CellsAdmit s.cells x := by
    have each : ∀ v : Fin 4, s.cells[v].bounds.lower ≤ finite (x v) ∧
        finite (x v) ≤ s.cells[v].bounds.upper := by decide +kernel
    intro v c found
    obtain ⟨known, rfl⟩ := Array.getElem?_eq_some_iff.mp found
    exact ⟨(each ⟨v, known⟩).1, (each ⟨v, known⟩).2⟩
  exact ⟨examineRows_admits (by decide +kernel) (by decide +kernel) formed (by decide) inside hold true,
    by decide +kernel⟩

end ReluSolver.Effort
