import Mathlib
import QuasiCut.Proofs.LinkedQubits
import QuasiCut.Proofs.SplitPairs

/-! Halves of a split are no wider than fragments. When all cuts lie at one position, the circuit is
split there and nowhere else, so each half is a slice between cuts. What is inserted at the split
acts on single qubits and links nothing. -/

namespace QuasiCut

namespace Circuit

variable {c : Circuit} {cuts : List WireCut} {budget : Number}

section Halves

variable {α : Type} {pair : SplitPair α} (halves : c.Halves cuts pair)

include halves

theorem Halves.before_narrow : ∀ i ∈ pair.before.data,
    i ∈ (c.slice 0 (c.splitAt cuts)).data ∨ i.qubits.length ≤ 1 := by
  intro i member
  obtain ⟨ops, data⟩ := halves.before
  rw [data] at member
  rcases List.mem_append.mp member with kept | inserted
  · exact Or.inl kept
  · obtain ⟨op, -, rfl⟩ := List.mem_map.mp inserted
    exact Or.inr le_rfl

theorem Halves.after_narrow : ∀ i ∈ pair.after.data,
    i ∈ (c.slice (c.splitAt cuts) c.data.length).data ∨ i.qubits.length ≤ 1 := by
  intro i member
  have rest : (c.slice (c.splitAt cuts) c.data.length).data = c.data.drop (c.splitAt cuts) := by
    show (c.data.take c.data.length).drop (c.splitAt cuts) = c.data.drop (c.splitAt cuts)
    rw [List.take_length]
  obtain ⟨ops, data⟩ := halves.after
  rw [data] at member
  rcases List.mem_append.mp member with inserted | kept
  · obtain ⟨op, -, rfl⟩ := List.mem_map.mp inserted
    exact Or.inr le_rfl
  · rw [rest]
    exact Or.inl kept

end Halves

section Position

variable (accepted : ∀ cut ∈ cuts, c.Accepts cut)
  (together : ∀ first ∈ cuts, ∀ second ∈ cuts, first.position = second.position)

include accepted together

theorem position_eq_splitAt : ∀ cut ∈ cuts, cut.position = c.splitAt cuts := by
  intro cut member
  cases cuts with
  | nil => cases member
  | cons first rest =>
      have low := (accepted cut member).low
      have same := together first List.mem_cons_self cut member
      show cut.position = (first.position.toNat : Int)
      omega

theorem sides_fit (fit : c.cutsFit cuts budget = true) :
    (c.slice 0 (c.splitAt cuts)).cutsFit [] budget = true ∧
      (c.slice (c.splitAt cuts) c.data.length).cutsFit [] budget = true := by
  have here := position_eq_splitAt accepted together
  have before : ∀ cut ∈ cuts, cut.position ≤ (0 : Nat) ∨ (c.splitAt cuts : Int) ≤ cut.position := by
    intro cut member
    exact Or.inr (here cut member).ge
  have after : ∀ cut ∈ cuts,
      cut.position ≤ c.splitAt cuts ∨ (c.data.length : Int) ≤ cut.position := by
    intro cut member
    exact Or.inl (here cut member).le
  obtain ⟨first⟩ := slice_embeds before
  obtain ⟨second⟩ := slice_embeds after
  exact ⟨first.cutsFit fit, second.cutsFit fit⟩

end Position

/-- If cuts at one position bring a circuit within a budget, then both halves of every configuration
are within it, although they hold operations that the circuit has not. -/
theorem cutWires_within_budget (α : Type) [One α] [Mul α] [Coefficient α] (c : Circuit)
    (cuts : List WireCut) (workers : Option Number) (budget : Number)
    (staffed : ∀ number ∈ workers, number.atLeast 1 = true) (positive : budget.atLeast 1 = true)
    (accepted : c.checkCuts cuts = .ok ())
    (together : ∀ first ∈ cuts, ∀ second ∈ cuts, first.position = second.position)
    (fit : c.cutsFit cuts budget = true) :
    ∃ pairs : List (SplitPair α), (c.cutWires cuts workers).outcome = .ok pairs ∧
      pairs.length = 4 ^ cuts.length ∧
      ∀ pair ∈ pairs, pair.before.cutsFit [] budget = true ∧
        pair.after.cutsFit [] budget = true := by
  obtain ⟨pairs, returned, count, halves⟩ := cutWires_halves (α := α) staffed accepted
  have sides := sides_fit (checkCuts_eq_ok_iff.mp accepted) together fit
  refine ⟨pairs, returned, count, ?_⟩
  intro pair member
  constructor
  · exact cutsFit_of_transfer (halves pair member).before_narrow positive sides.1
  · exact cutsFit_of_transfer (halves pair member).after_narrow positive sides.2

theorem ladder_halves_within :
    ladder.cutsFit [] (.integer 3) = false ∧
    ladder.checkCuts [⟨1, 1⟩, ⟨1, 3⟩, ⟨1, 1⟩] = .ok () ∧
    ladder.cutsFit [⟨1, 1⟩, ⟨1, 3⟩, ⟨1, 1⟩] (.integer 3) = true ∧
    ∃ pairs : List (SplitPair Binary64),
      (ladder.cutWires [⟨1, 1⟩, ⟨1, 3⟩, ⟨1, 1⟩] (some (.integer 2))).outcome = .ok pairs ∧
      pairs.length = 64 ∧
      ∀ pair ∈ pairs, pair.before.cutsFit [] (.integer 3) = true ∧
        pair.after.cutsFit [] (.integer 3) = true := by
  have accepted : ladder.checkCuts [⟨1, 1⟩, ⟨1, 3⟩, ⟨1, 1⟩] = .ok () := by decide
  have fit : ladder.cutsFit [⟨1, 1⟩, ⟨1, 3⟩, ⟨1, 1⟩] (.integer 3) = true := by decide
  have within := cutWires_within_budget Binary64 ladder [⟨1, 1⟩, ⟨1, 3⟩, ⟨1, 1⟩] (some (.integer 2))
    (.integer 3) (by decide) (by decide) accepted (by decide) fit
  exact ⟨by decide, accepted, fit, within⟩

-- Cuts at two positions fit, but the circuit is split at the first only.
example : ladder.cutsFit [⟨1, 1⟩, ⟨2, 2⟩] (.integer 2) = true ∧
    (ladder.splitPair [⟨1, 1⟩, ⟨2, 2⟩] 0 : Except Fault (SplitPair ℚ)).map
      (fun pair => pair.after.cutsFit [] (.integer 2)) = .ok false := by
  decide +kernel

end Circuit
end QuasiCut
