import Mathlib
import QuasiCut.Proofs.GateChoices
import QuasiCut.Proofs.SliceBudget
import QuasiCut.Proofs.SplitPairs

/-! The sums of the weights of all configurations, signed and absolute. Both are products over the cuts,
and the square of the absolute sum of wire cuts is their sampling overhead. -/

namespace QuasiCut

namespace Basis

def coeffSum (f : ℚ → ℚ) (b : Basis ℚ) : ℚ :=
  ((List.range b.numTerms).map fun term => f (b.coeffs.getD term 0)).sum

end Basis

namespace Configuration

theorem sum_listing_map (f : ℚ →* ℚ) (bases : List (Basis ℚ)) :
    ((listing bases).map fun entry => f entry.2).sum = (bases.map (Basis.coeffSum f)).prod := by
  induction bases with
  | nil => simp [listing]
  | cons b bases ih =>
      calc
        ((listing (b :: bases)).map fun entry => f entry.2).sum =
            ((listing bases).map fun entry => b.coeffSum f * f entry.2).sum := by
          simp only [sum_listing_cons, Basis.coeffSum, f.map_mul, List.sum_map_mul_right]
        _ = ((b :: bases).map (Basis.coeffSum f)).prod := by
          rw [List.sum_map_mul_left, ih, List.map_cons, List.prod_cons]

end Configuration

def absoluteSum (weights : List ℚ) : ℚ := (weights.map abs).sum

namespace Instruction

theorem absolute_basis (i : Instruction) :
    i.basis.coeffSum abs = if i.name = "cx" then 2 else 1 := by
  unfold basis
  split
  · decide +kernel
  · split <;> decide +kernel

theorem signed_basis (i : Instruction) :
    i.basis.coeffSum id = if i.name = "cz" then 1 / 2 else 1 := by
  unfold basis
  by_cases controlled : i.name = "cx"
  · rw [if_pos controlled, controlled]
    decide +kernel
  · rw [if_neg controlled]
    split <;> decide +kernel

end Instruction

namespace Circuit

variable {c : Circuit} {gates : List Int}

def pairsNamed (c : Circuit) (name : String) (gates : List Int) : Nat :=
  gates.countP fun gate =>
    (c.data[gate.toNat]?).any fun i => i.name == name && i.qubits.length == 2

section Gates

theorem pairsNamed_cons {gate : Int} {i : Instruction} (present : c.data[gate.toNat]? = some i)
    (name : String) (rest : List Int) :
    c.pairsNamed name (gate :: rest) =
      c.pairsNamed name rest + if i.name = name ∧ i.qubits.length = 2 then 1 else 0 := by
  simp [pairsNamed, List.countP_cons, present]

theorem prod_cuttable (inside : ∀ gate ∈ gates, 0 ≤ gate ∧ gate < c.data.length) {name : String}
    (cut : name = "cx" ∨ name = "cz" ∨ name = "swap") (value : ℚ) :
    ((c.cuttable gates).map fun gate => if gate.2.name = name then value else 1).prod =
      value ^ c.pairsNamed name gates := by
  induction gates with
  | nil => simp [cuttable, pairsNamed]
  | cons gate rest ih =>
      rcases List.forall_mem_cons.mp inside with ⟨bounds, later⟩
      rcases exists_gate bounds with ⟨i, present⟩
      rw [cuttable_cons present, pairsNamed_cons present]
      by_cases named : i.name = name ∧ i.qubits.length = 2
      · have cuttable : i.isCuttable = true := by
          rw [Instruction.isCuttable_iff, named.1]
          exact ⟨cut, named.2⟩
        rw [if_pos cuttable, List.map_cons, List.prod_cons, if_pos named.1, ih later, if_pos named,
          pow_succ']
      · rw [if_neg named, Nat.add_zero, ← ih later]
        by_cases cuttable : i.isCuttable = true
        · have other : i.name ≠ name := fun same =>
            named ⟨same, (Instruction.isCuttable_iff.mp cuttable).2⟩
          rw [if_pos cuttable, List.map_cons, List.prod_cons, if_neg other, one_mul]
        · rw [if_neg cuttable]

theorem experiments_weights (f : ℚ →* ℚ) (c : Circuit) (gates : List Int) :
    (((c.experiments gates).map Experiment.weight).map f).sum =
      ((c.cuttable gates).map fun gate => gate.2.basis.coeffSum f).prod := by
  rw [experiments, List.map_map, List.map_map]
  exact (Configuration.sum_listing_map f (c.gateBases gates)).trans
    (congrArg List.prod (List.map_map ..))

theorem absoluteSum_experiments (inside : ∀ gate ∈ gates, 0 ≤ gate ∧ gate < c.data.length) :
    absoluteSum ((c.experiments gates).map Experiment.weight) = 2 ^ c.pairsNamed "cx" gates := by
  calc
    absoluteSum ((c.experiments gates).map Experiment.weight) =
        ((c.cuttable gates).map fun gate => gate.2.basis.coeffSum abs).prod :=
      experiments_weights absHom.toMonoidHom c gates
    _ = ((c.cuttable gates).map fun gate => if gate.2.name = "cx" then 2 else 1).prod := by
      simp only [Instruction.absolute_basis]
    _ = 2 ^ c.pairsNamed "cx" gates := prod_cuttable inside (Or.inl rfl) 2

theorem sum_experiments (inside : ∀ gate ∈ gates, 0 ≤ gate ∧ gate < c.data.length) :
    ((c.experiments gates).map Experiment.weight).sum = (1 / 2) ^ c.pairsNamed "cz" gates := by
  calc
    ((c.experiments gates).map Experiment.weight).sum =
        ((c.cuttable gates).map fun gate => gate.2.basis.coeffSum id).prod := by
      rw [← List.map_id ((c.experiments gates).map Experiment.weight)]
      exact experiments_weights (MonoidHom.id ℚ) c gates
    _ = ((c.cuttable gates).map fun gate => if gate.2.name = "cz" then 1 / 2 else 1).prod := by
      simp only [Instruction.signed_basis]
    _ = (1 / 2) ^ c.pairsNamed "cz" gates := prod_cuttable inside (Or.inr (Or.inl rfl)) (1 / 2)

end Gates

section Wires

variable {cuts : List WireCut}

theorem absoluteSum_pairs {pairs : List (SplitPair ℚ)}
    (splits : List.Forall₂ (c.Splits cuts) (List.range (4 ^ cuts.length)) pairs) :
    absoluteSum (pairs.map SplitPair.coeff) = 2 ^ cuts.length := by
  have each : ∀ weight ∈ (pairs.map SplitPair.coeff).map abs, weight = (1 / 2 : ℚ) ^ cuts.length := by
    intro weight member
    rcases List.mem_map.mp member with ⟨coeff, listed, rfl⟩
    rcases List.mem_map.mp listed with ⟨pair, present, rfl⟩
    rcases exists_of_forall₂ splits present with ⟨index, -, split⟩
    rw [split.coeff]
    exact abs_of_nonneg (by positivity)
  have count : pairs.length = 4 ^ cuts.length := by
    rw [← splits.length_eq, List.length_range]
  rw [absoluteSum, List.sum_eq_card_nsmul _ _ each, List.length_map, List.length_map, count,
    nsmul_eq_mul, Nat.cast_pow, ← mul_pow]
  norm_num

theorem sliceAtCuts_squared (few : cuts.length < 512) (accepted : c.checkCuts cuts = .ok ()) :
    ∃ result, (c.sliceAtCuts cuts).outcome = .ok result ∧
      result.overhead.toRat? = some (4 ^ cuts.length) := by
  rcases sliceAtCuts_outcome few accepted with ⟨result, returned, -⟩
  rcases samplingOverhead_exact few with ⟨overhead, priced, value⟩
  rw [sliceAtCuts_overhead returned] at priced
  cases priced
  exact ⟨result, returned, value⟩

end Wires

/-- The absolute weights of the pairs for `k` wire cuts sum to `2 ^ k`, whose square is the overhead of
slicing at them. Of the experiments for some gates, only those named cx contribute to the absolute sum,
a factor of two each, and only those named cz to the signed sum, a half each. -/
theorem weights_sum (c : Circuit) :
    (∀ (cuts : List WireCut) (workers : Option Number),
      (∀ number ∈ workers, number.atLeast 1 = true) → c.checkCuts cuts = .ok () →
        ∃ pairs, (c.cutWires cuts workers).outcome = .ok pairs ∧
          absoluteSum (pairs.map SplitPair.coeff) = 2 ^ cuts.length ∧
          absoluteSum (pairs.map SplitPair.coeff) ^ 2 = 4 ^ cuts.length ∧
          (cuts.length < 512 → ∃ result, (c.sliceAtCuts cuts).outcome = .ok result ∧
            result.overhead.toRat? = some (4 ^ cuts.length))) ∧
    ∀ gates : List Int, c.checkGates (gates.map .integer) = .ok () →
      ((∃ cutting, (c.cutGates gates : Report (GateCutting ℚ)).outcome = .ok cutting) ↔
        (c.cuttable gates).length ≤ 646) ∧
      ∀ cutting, (c.cutGates gates).outcome = .ok cutting →
        absoluteSum (cutting.experiments.map Experiment.weight) = 2 ^ c.pairsNamed "cx" gates ∧
        (cutting.experiments.map Experiment.weight).sum = (1 / 2) ^ c.pairsNamed "cz" gates := by
  constructor
  · intro cuts workers staffed accepted
    rcases cutWires_splits staffed (checkCuts_eq_ok_iff.mp accepted) with ⟨pairs, returned, splits⟩
    have total := absoluteSum_pairs splits
    refine ⟨pairs, returned, total, ?_, fun few => sliceAtCuts_squared few accepted⟩
    rw [total, pow_right_comm]
    norm_num
  · intro gates accepted
    refine ⟨cutGates_isOk_iff accepted, ?_⟩
    intro cutting returned
    have inside := ((c.checkGates_eq_ok_iff gates).mp accepted).2
    rw [experiments_of_returned accepted returned]
    exact ⟨absoluteSum_experiments inside, sum_experiments inside⟩

theorem crossed_weights_sum :
    (∃ pairs, (crossed.cutWires [⟨2, 1⟩, ⟨1, 0⟩, ⟨2, 1⟩] none).outcome = .ok pairs ∧
      absoluteSum (pairs.map SplitPair.coeff) = 8) ∧
    (∃ result, (crossed.sliceAtCuts [⟨2, 1⟩, ⟨1, 0⟩, ⟨2, 1⟩]).outcome = .ok result ∧
      result.overhead.toRat? = some 64) ∧
    ∃ cutting, (crossed.cutGates [2, 1, 0]).outcome = .ok cutting ∧
      absoluteSum (cutting.experiments.map Experiment.weight) = 2 ∧
      (cutting.experiments.map Experiment.weight).sum = 1 / 2 := by
  have sums := weights_sum crossed
  rcases sums.1 [⟨2, 1⟩, ⟨1, 0⟩, ⟨2, 1⟩] none (by decide) (by decide) with
    ⟨pairs, split, total, -, sliced⟩
  rcases sliced (by decide) with ⟨result, returned, overhead⟩
  rcases sums.2 [2, 1, 0] (by decide) with ⟨returns, weights⟩
  rcases returns.mpr (by decide) with ⟨cutting, cut⟩
  rcases weights cutting cut with ⟨absolute, signed⟩
  have controlled : crossed.pairsNamed "cx" [2, 1, 0] = 1 := by decide
  have phased : crossed.pairsNamed "cz" [2, 1, 0] = 1 := by decide
  rw [controlled, pow_one] at absolute
  rw [phased, pow_one] at signed
  exact ⟨⟨pairs, split, total.trans (by norm_num)⟩,
    ⟨result, returned, overhead.trans (by norm_num)⟩, cutting, cut, absolute, signed⟩

end Circuit
end QuasiCut
