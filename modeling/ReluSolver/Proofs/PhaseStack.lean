import ReluSolver.Proofs.FaultlessSearch
import ReluSolver.Proofs.LastingBounds
import ReluSolver.Proofs.ReluPass

/-! The search never branches twice on a ReLU. The phase that it imposes keeps the input
on one side of zero for as long as the frame is open, and an input on one side of zero
always fixes the phase. -/

namespace ReluSolver

open Extended Searching

theorem Extended.le_of_lt {x y : Extended} (less : x < y) : x ≤ y :=
  Bool.or_eq_true_iff.mpr (.inl less)

/-- The bounds of the input leave only one side of zero. -/
def Relu.Settled (cells : Array (Cell Extended)) (r : Relu) : Prop :=
  ∃ c, cells[r.b]? = some c ∧ (0 ≤ c.bounds.lower ∨ c.bounds.upper ≤ 0)

namespace Relu

variable {r : Relu}

theorem settled_lasting (r : Relu) : Store.Lasting (Settled · r) := by
  rintro s t known ⟨c, found, side⟩
  rcases Store.place_cases s t known with ⟨-, placed⟩ | ⟨observer, improves, placed⟩
  · exact ⟨c, by rw [placed, found], side⟩
  rw [placed]
  by_cases here : t.var = r.b
  · obtain ⟨changed, var, value⟩ := t
    subst here
    obtain rfl : s.cells[r.b] = c := by simpa [Array.getElem?_eq_getElem known] using found
    refine ⟨_, Array.getElem?_set_self known, ?_⟩
    -- The end that moves only moves further to its side of zero.
    cases changed with
    | lower =>
      have stricter : s.cells[r.b].bounds.lower < value := of_decide_eq_true improves
      exact side.imp_left fun positive => Extended.le_trans positive (le_of_lt stricter)
    | upper =>
      have stricter : value < s.cells[r.b].bounds.upper := of_decide_eq_true improves
      exact side.imp_right fun negative => Extended.le_trans (le_of_lt stricter) negative
  · exact ⟨c, by simp only; rw [Array.getElem?_set_ne known here, found], side⟩

variable {s : Store Extended} {t : Tolerance Extended} {epsilon : ℚ}

theorem Settled.phase_fixed (settled : r.Settled s.cells) (same : t.epsilon = finite epsilon)
    (positive : 0 ≤ epsilon) {phase : Phase} (said : r.phase s t = .ok phase) :
    phase ≠ .unfixed := by
  obtain ⟨b, f, bounded⟩ := phase_bounded said
  obtain ⟨c, found, side⟩ := settled
  obtain ⟨c', found', rfl⟩ := Store.interval_eq_ok.mp bounded.input
  obtain rfl : c = c' := Option.some.inj (found.symm.trans found')
  obtain rfl := Except.ok.inj (said.symm.trans (bounded.phase_eq t))
  have below : finite (-epsilon) ≤ 0 := zero_eq ▸ le_finite.mpr (neg_nonpos.mpr positive)
  have above : 0 ≤ finite epsilon := zero_eq ▸ le_finite.mpr positive
  unfold phaseWithin
  split
  · exact nofun
  · rcases side with nonneg | nonpos
    next active =>
      refine absurd ?_ active
      rw [Bool.or_eq_true, t.ge_zero same positive]
      exact .inl (Extended.le_trans below nonneg)
    · rw [if_pos]
      · exact nofun
      · rw [Bool.or_eq_true, t.le_zero same positive]
        exact .inl (Extended.le_trans nonpos above)

end Relu

theorem Store.cellsDefined_lasting : Lasting CellsDefined := fun _ t known defined =>
  (Tightened.place .refl t known).defined defined

theorem Relu.phaseSplit_settles {r : Relu} {phase : Phase} {split : CaseSplit Extended}
    (made : r.phaseSplit phase = .ok split) {s last : Store Extended} {outcome : Outcome}
    (defined : Store.CellsDefined s.cells)
    (run : (Store.tightenAll split.tightenings s : EStateM.Result Fault _ _) = .ok outcome last)
    (feasible : outcome ≠ .infeasible) : r.Settled last.cells := by
  -- Either phase begins with the bound of the input, which no later tightening takes back.
  obtain ⟨side, rest, shape⟩ : ∃ side rest, split.tightenings = ⟨side, r.b, 0⟩ :: rest := by
    cases phase with
    | active | inactive =>
      cases made
      exact ⟨_, _, rfl⟩
    | unfixed => cases made
  rw [shape] at run
  obtain ⟨early, between, tightened, run⟩ := run_bind_eq_ok.mp run
  by_cases known : r.b < s.cells.size
  swap
  · obtain ⟨cause, failed⟩ := Store.tighten_unknown (t := ⟨side, r.b, (0 : Extended)⟩) known
    cases failed.symm.trans tightened
  have first : r.Settled between.cells := by
    rw [Store.tighten_known known] at tightened
    obtain ⟨-, rfl⟩ := EStateM.Result.ok.inj tightened
    have bounds := defined r.b _ (Array.getElem?_eq_getElem known)
    have narrowed := interval_place (t := ⟨side, r.b, 0⟩)
      (Store.interval_of_cell (Array.getElem?_eq_getElem known)) bounds known
    rw [if_pos rfl] at narrowed
    obtain ⟨c, found, same⟩ := Store.interval_eq_ok.mp narrowed
    refine ⟨c, found, ?_⟩
    rw [same]
    cases side with
    | lower =>
      refine .inl ((le_iff_position zero_defined (max_defined bounds.1)).mpr ?_)
      rw [position_max bounds.1 zero_defined]
      exact le_max_right _ _
    | upper =>
      refine .inr ((le_iff_position (min_defined bounds.2) zero_defined).mpr ?_)
      rw [position_min bounds.2 zero_defined]
      exact min_le_right _ _
  split at run
  · cases run
    exact absurd rfl feasible
  · obtain ⟨late, last', others, run⟩ := run_bind_eq_ok.mp run
    cases run
    exact ((Store.tightenAll_tightened between rest).ok .refl others).lasts r.settled_lasting first

namespace BranchingHeuristic

variable {s : Store Extended} {t : Tolerance Extended}

theorem mem_unfixedFrom {relus : List Relu} {first : Nat} {unfixed : List (Candidate Extended)}
    (run : unfixedFrom s t first relus = .ok unfixed) {candidate : Candidate Extended} :
    candidate ∈ unfixed ↔ ∃ i r, candidate.index = first + i ∧ relus[i]? = some r ∧
      r.phase s t = .ok .unfixed ∧ s.interval r.b = .ok candidate.bounds := by
  induction relus generalizing first unfixed with
  | nil =>
    obtain rfl := Except.ok.inj run
    simp
  | cons r rest ih =>
    obtain ⟨phase, phased, run⟩ := bind_eq_ok.mp run
    obtain ⟨bounds, read, run⟩ := bind_eq_ok.mp run
    obtain ⟨later, others, run⟩ := bind_eq_ok.mp run
    obtain rfl := Except.ok.inj run
    have atHead : (∃ r', candidate.index = first + 0 ∧ (r :: rest)[0]? = some r' ∧
        r'.phase s t = .ok .unfixed ∧ s.interval r'.b = .ok candidate.bounds) ↔
        phase = .unfixed ∧ candidate = ⟨first, bounds⟩ := by
      obtain ⟨index, bounds'⟩ := candidate
      simp only [List.getElem?_cons_zero, Option.some.injEq, Nat.add_zero, Candidate.mk.injEq]
      constructor
      · rintro ⟨r', index, rfl, unfixed, held⟩
        exact ⟨Except.ok.inj (phased.symm.trans unfixed), index, Except.ok.inj (held.symm.trans read)⟩
      · rintro ⟨rfl, index, rfl⟩
        exact ⟨r, index, rfl, phased, read⟩
    have inTail : (∃ i r', candidate.index = first + (i + 1) ∧ (r :: rest)[i + 1]? = some r' ∧
        r'.phase s t = .ok .unfixed ∧ s.interval r'.b = .ok candidate.bounds) ↔
        candidate ∈ later := by
      simp only [ih others, List.getElem?_cons_succ, Nat.add_assoc, Nat.add_comm 1]
    rw [← Nat.or_exists_add_one, atHead, inTail]
    split
    next unfixed => simp [unfixed]
    next fixed => simp [fixed]

/-- A heuristic only ever selects an unfixed ReLU. -/
theorem select_unfixed {h : BranchingHeuristic} {q : Query Extended} {index : Nat}
    (run : h.select q s t = .ok (some index)) :
    ∃ r, q.relus[index]? = some r ∧ r.phase s t = .ok .unfixed := by
  obtain ⟨unfixed, listed, run⟩ := bind_eq_ok.mp run
  obtain ⟨candidate, best, rfl⟩ := Option.map_eq_some_iff.mp (Except.ok.inj run)
  obtain ⟨i, r, index, found, said, -⟩ := (mem_unfixedFrom listed).mp (firstBest?_mem best)
  exact ⟨r, by rwa [index, Nat.zero_add], said⟩

end BranchingHeuristic

def Query.Settles (q : Query Extended) (cells : Array (Cell Extended)) (relu : Nat) : Prop :=
  ∃ r, q.relus[relu]? = some r ∧ r.Settled cells

theorem Query.settles_lasting (q : Query Extended) (relu : Nat) :
    Store.Lasting (q.Settles · relu) :=
  fun s t known ⟨r, found, settled⟩ => ⟨r, found, r.settled_lasting s t known settled⟩

/-- Each frame has a ReLU of its own: where it was opened, those of the frames around it were
settled. -/
def Trodden (q : Query Extended) : List Frame → List (Array (Cell Extended)) → Prop
  | [], _ => True
  | frame :: outer, below :: rest =>
    frame.relu < q.relus.length ∧
      (∀ other ∈ outer, q.Settles below other.relu ∧ other.relu ≠ frame.relu) ∧ Trodden q outer rest
  | _ :: _, [] => False

namespace Trodden

variable {q : Query Extended} {frames : List Frame} {saved : List (Array (Cell Extended))}

theorem own (trodden : Trodden q frames saved) :
    (frames.map (·.relu)).Nodup ∧ ∀ frame ∈ frames, frame.relu < q.relus.length := by
  induction frames generalizing saved with
  | nil => simp
  | cons frame outer ih =>
    cases saved with
    | nil => exact trodden.elim
    | cons below rest =>
      obtain ⟨inside, apart, others⟩ := trodden
      obtain ⟨nodup, known⟩ := ih others
      rw [List.map_cons, List.nodup_cons]
      refine ⟨⟨fun member => ?_, nodup⟩, List.forall_mem_cons.mpr ⟨inside, known⟩⟩
      obtain ⟨other, present, same⟩ := List.mem_map.mp member
      exact (apart other present).2 same

theorem length_le (trodden : Trodden q frames saved) : frames.length ≤ q.relus.length := by
  obtain ⟨nodup, known⟩ := trodden.own
  have among : frames.map (·.relu) ⊆ List.range q.relus.length := by
    intro relu member
    obtain ⟨frame, present, rfl⟩ := List.mem_map.mp member
    exact List.mem_range.mpr (known frame present)
  simpa using (nodup.subperm among).length_le

end Trodden

end ReluSolver
