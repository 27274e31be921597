import Mathlib
import QuasiCut.Proofs.PlanLimit
import QuasiCut.Proofs.SliceBudget
import QuasiCut.Proofs.SplitPairs

/-! What can be done with planned cuts. They come one after another, each just behind an instruction
on several qubits, so the circuit can be split at them, and slicing it leaves parts that end with
those instructions. -/

namespace QuasiCut

namespace Circuit

variable {c : Circuit} {cuts : List WireCut}

theorem proposalsFrom_increasing (position : Nat) (data : List Instruction) :
    (proposalsFrom position data).Pairwise fun a b => a.position < b.position := by
  induction data generalizing position with
  | nil => exact List.Pairwise.nil
  | cons i rest ih =>
      have later := ih (position + 1)
      rw [proposalsFrom]
      split
      · exact later
      · split
        · apply List.pairwise_cons.mpr
          refine ⟨?_, later⟩
          intro cut member
          have after := (mem_proposalsFrom member).1
          rw [Nat.cast_add, Nat.cast_one] at after
          exact after
        · exact later

def Follows (c : Circuit) (cut : WireCut) : Prop :=
  ∃ (position : Nat) (i : Instruction), cut.position = position + 1 ∧
    c.data[position]? = some i ∧ i.isBarrier = false ∧ i.qubits[1]? = some cut.qubit

theorem proposals_follow {cut : WireCut} (member : cut ∈ c.proposals) : c.Follows cut := by
  have severs : List.Forall₂ (flip SeversAfter) c.crossings c.proposals :=
    (proposalsFrom_seversAfter 0 c.data).flip
  rcases exists_of_forall₂ severs member with ⟨⟨i, position⟩, crossing, after, severed⟩
  rcases List.mem_filter.mp crossing with ⟨listed, crosses⟩
  have acting : i.isBarrier = false := by
    simp only [Circuit.crosses, Bool.and_eq_true, Bool.not_eq_true'] at crosses
    exact crosses.1
  exact ⟨position, i, after, List.mem_zipIdx_iff_getElem?.mp listed, acting, severed⟩

def EndsAcross (part : Circuit) (qubit : Number) : Prop :=
  ∃ i second, part.data.getLast? = some i ∧ i.isBarrier = false ∧ i.qubits[1]? = some second ∧
    qubit = .integer second

theorem slice_getLast? {start position : Nat} {i : Instruction} (before : start ≤ position)
    (present : c.data[position]? = some i) :
    (c.slice start (position + 1)).data.getLast? = some i := by
  have bound : position < c.data.length := (List.getElem?_eq_some_iff.mp present).1
  have reached : start ≤ (c.data.take position).length := by
    rw [List.length_take]
    omega
  calc
    (c.slice start (position + 1)).data.getLast? =
        ((c.data.take position ++ [i]).drop start).getLast? := by
      show ((c.data.take (position + 1)).drop start).getLast? = _
      rw [List.take_add_one, present]
      rfl
    _ = some i := by rw [List.drop_append_of_le_length reached, List.getLast?_concat]

theorem slicesFrom_follow {start : Nat} (follow : ∀ cut ∈ cuts, c.Follows cut)
    (increasing : cuts.Pairwise fun a b => a.position < b.position)
    (ahead : ∀ cut ∈ cuts, (start : Int) < cut.position) :
    ∃ parts last, c.slicesFrom start (cuts.map (·.position.toNat)) = parts ++ [last] ∧
      List.Forall₂ (fun part cut => EndsAcross part (.integer cut.qubit)) parts cuts := by
  induction cuts generalizing start with
  | nil => exact ⟨[], c.slice start c.data.length, rfl, List.Forall₂.nil⟩
  | cons cut rest ih =>
      rcases List.forall_mem_cons.mp follow with ⟨⟨position, i, after, present, acting, severed⟩, others⟩
      rcases List.pairwise_cons.mp increasing with ⟨beyond, increasing⟩
      have stop : cut.position.toNat = position + 1 := by omega
      have before : start ≤ position := by
        have first := ahead cut List.mem_cons_self
        omega
      have reached : ∀ later ∈ rest, ((position + 1 : Nat) : Int) < later.position := by
        intro later member
        have next := beyond later member
        omega
      rcases ih others increasing reached with ⟨parts, last, slices, ends⟩
      refine ⟨c.slice start (position + 1) :: parts, last, ?_, List.Forall₂.cons ?_ ends⟩
      · rw [List.map_cons, slicesFrom, stop, slices, List.cons_append]
      · exact ⟨i, cut.qubit, slice_getLast? before present, acting, severed, rfl⟩

/-- Cuts that lie one behind another, each after an instruction on several qubits. -/
structure Planned (c : Circuit) (cuts : List WireCut) : Prop where
  increasing : cuts.Pairwise fun a b => a.position < b.position
  inside : ∀ cut ∈ cuts, 1 ≤ cut.position ∧ cut.position ≤ c.data.length
  follow : ∀ cut ∈ cuts, c.Follows cut

theorem findCuts_planned {budget : Number} (found : (c.findCuts budget).outcome = .ok cuts) :
    c.Planned cuts := by
  have proposed := findCuts_proposed found
  constructor
  · exact (proposalsFrom_increasing 0 c.data).sublist proposed.sublist
  · intro cut member
    rcases mem_proposalsFrom (proposed.subset member) with ⟨after, upto, -⟩
    exact ⟨by omega, by omega⟩
  · intro cut member
    exact proposals_follow (proposed.subset member)

theorem Planned.sorted (planned : c.Planned cuts) : WireCut.sorted cuts = cuts := by
  apply List.mergeSort_of_pairwise
  exact planned.increasing.imp fun before => decide_eq_true before.le

/-- One part more than cuts, and all but the last end with an instruction on several qubits, the
second of which is recorded. -/
structure SlicedAcross (cuts : List WireCut) (result : CutCircuit) : Prop where
  count : result.subcircuits.length = cuts.length + 1
  records : result.cuts = cuts.zipIdx.map fun (cut, index) => ⟨index, .integer cut.qubit, .wire⟩
  ends : List.Forall₂ (fun part record => EndsAcross part record.qubit)
    result.subcircuits.dropLast result.cuts

theorem Planned.slices (planned : c.Planned cuts) (accepted : c.checkCuts cuts = .ok ())
    (few : cuts.length < 512) :
    ∃ result, (c.sliceAtCuts cuts).outcome = .ok result ∧ SlicedAcross cuts result := by
  have ahead : ∀ cut ∈ cuts, ((0 : Nat) : Int) < cut.position := by
    intro cut member
    have low := (planned.inside cut member).1
    omega
  rcases sliceAtCuts_outcome few accepted with ⟨result, returned, slices, records⟩
  rcases slicesFrom_follow planned.follow planned.increasing ahead with ⟨parts, last, same, ends⟩
  rw [slicePositions, planned.sorted, same] at slices
  rw [planned.sorted] at records
  refine ⟨result, returned, ?_, records, ?_⟩
  · rw [slices, List.length_append, List.length_singleton, ends.length_eq]
  · rw [slices, List.dropLast_concat, records, List.forall₂_map_right_iff]
    rw [← List.zipIdx_map_fst 0 cuts, List.forall₂_map_right_iff] at ends
    exact ends

/-- Whatever the planner returns has increasing positions and is accepted. So the circuit can be split
at it with coefficients of every kind, and fewer than 512 cuts slice it into parts of which only the
last may be empty. -/
theorem findCuts_usable (α : Type) [One α] [Mul α] [Coefficient α] (c : Circuit) (budget : Number)
    (positive : budget.atLeast 1 = true) :
    ∃ cuts, (c.findCuts budget).outcome = .ok cuts ∧
      cuts.Pairwise (fun a b => a.position < b.position) ∧
      (∀ cut ∈ cuts, 1 ≤ cut.position ∧ cut.position ≤ c.data.length) ∧
      c.checkCuts cuts = .ok () ∧
      (∀ workers : Option Number, (∀ number ∈ workers, number.atLeast 1 = true) →
        ∃ pairs : List (SplitPair α), (c.cutWires cuts workers).outcome = .ok pairs) ∧
      (cuts.length < 512 →
        ∃ result, (c.sliceAtCuts cuts).outcome = .ok result ∧ SlicedAcross cuts result) := by
  rcases findCuts_returns positive with ⟨cuts, found⟩
  have planned := findCuts_planned found
  have accepted := findCuts_accepted found
  exact ⟨cuts, found, planned.increasing, planned.inside, accepted,
    fun workers staffed => cutWires_returns staffed accepted, planned.slices accepted⟩

theorem threefold_usable :
    (threefold.findCuts (.integer 3)).outcome = .ok [⟨1, 1⟩, ⟨3, 1⟩, ⟨4, 3⟩] ∧
    (∃ pairs : List (SplitPair Binary64),
      (threefold.cutWires [⟨1, 1⟩, ⟨3, 1⟩, ⟨4, 3⟩] (some (.integer 2))).outcome = .ok pairs) ∧
    ∃ result, (threefold.sliceAtCuts [⟨1, 1⟩, ⟨3, 1⟩, ⟨4, 3⟩]).outcome = .ok result ∧
      SlicedAcross [⟨1, 1⟩, ⟨3, 1⟩, ⟨4, 3⟩] result := by
  have planned : (threefold.findCuts (.integer 3)).outcome = .ok [⟨1, 1⟩, ⟨3, 1⟩, ⟨4, 3⟩] := rfl
  rcases findCuts_usable Binary64 threefold (.integer 3) (by decide) with
    ⟨cuts, found, -, -, -, split, sliced⟩
  rw [planned] at found
  cases found
  exact ⟨planned, split (some (.integer 2)) (by decide), sliced (by decide)⟩

end Circuit
end QuasiCut
