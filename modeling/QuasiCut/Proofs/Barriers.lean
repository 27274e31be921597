import Mathlib
import QuasiCut.Proofs.Translation

/-! Barriers and the planner. A barrier that is inserted into a circuit moves what comes after it by one
position and changes nothing else, neither for the fragments of given cuts nor for the cuts that are
planned. -/

namespace QuasiCut

def shiftPosition (place position : Nat) : Nat := if position < place then position else position + 1

theorem shiftPosition_strictMono (place : Nat) : StrictMono (shiftPosition place) := by
  intro first second before
  unfold shiftPosition
  split <;> split <;> omega

/-- The cut after an insertion at `place`: a cut just there comes before what is inserted. -/
def WireCut.shifted (place : Nat) (cut : WireCut) : WireCut :=
  if (place : Int) < cut.position then { cut with position := cut.position + 1 } else cut

theorem WireCut.shifted_qubit (place : Nat) (cut : WireCut) :
    (cut.shifted place).qubit = cut.qubit := by
  unfold WireCut.shifted
  split <;> rfl

theorem WireCut.shifted_position (place : Nat) (cut : WireCut) :
    (cut.shifted place).position =
      if (place : Int) < cut.position then cut.position + 1 else cut.position := by
  unfold WireCut.shifted
  split <;> rfl

theorem shiftPosition_lt_iff (place position : Nat) (cut : WireCut) :
    (shiftPosition place position : Int) < (cut.shifted place).position ↔
      (position : Int) < cut.position := by
  rw [WireCut.shifted_position, shiftPosition]
  split <;> split <;> omega

namespace Circuit

variable {c : Circuit} {place : Nat} {i : Instruction} {fits : i.FitsIn c.numQubits c.numClbits}

def insertAt (c : Circuit) (place : Nat) (i : Instruction)
    (fits : i.FitsIn c.numQubits c.numClbits) : Circuit :=
  c.withData (c.data.insertIdx place i) fun j member =>
    (List.eq_or_mem_of_mem_insertIdx member).elim (fun same => same ▸ fits) (c.fits j)

theorem insertAt_data (position : Nat) :
    (c.insertAt place i fits).data[shiftPosition place position]? = c.data[position]? := by
  change (c.data.insertIdx place i)[shiftPosition place position]? = c.data[position]?
  unfold shiftPosition
  split
  · next before => exact List.getElem?_insertIdx_of_lt before
  · next after =>
      have beyond : place < position + 1 := by omega
      rw [List.getElem?_insertIdx_of_gt beyond, Nat.add_sub_cancel]

theorem exists_shifted {position : Nat} {j : Instruction}
    (present : (c.insertAt place i fits).data[position]? = some j) (differs : j ≠ i) :
    ∃ before, shiftPosition place before = position := by
  rcases Nat.lt_trichotomy position place with earlier | here | later
  · exact ⟨position, if_pos earlier⟩
  · have inserted : (c.data.insertIdx place i)[position]? = some j := present
    rw [here, List.getElem?_insertIdx_self] at inserted
    split at inserted
    · exact absurd (Option.some.inj inserted).symm differs
    · cases inserted
  · refine ⟨position - 1, ?_⟩
    rw [shiftPosition, if_neg (by omega)]
    omega

section Translation

def Use.shifted (fits : i.FitsIn c.numQubits c.numClbits) (place : Nat) (u : c.Use) :
    (c.insertAt place i fits).Use where
  position := shiftPosition place u.position
  qubit := u.qubit
  acts := by
    rw [insertAt_data]
    exact u.acts

theorem Use.shifted_surjective (barrier : i.isBarrier = true) :
    Function.Surjective (Use.shifted fits place) := by
  intro v
  rcases v.acts with ⟨j, present, acting, used⟩
  have differs : j ≠ i := by
    intro same
    rw [same, barrier] at acting
    cases acting
  rcases exists_shifted present differs with ⟨before, moved⟩
  rw [← moved, insertAt_data] at present
  exact ⟨⟨before, v.qubit, j, present, acting, used⟩, Use.ext moved rfl⟩

def barrierTranslation (fits : i.FitsIn c.numQubits c.numClbits) (place : Nat)
    (barrier : i.isBarrier = true) : Translation c (c.insertAt place i fits) where
  position := shiftPosition place
  qubit := id
  place := Use.shifted fits place
  position_place _ := rfl
  qubit_place _ := rfl
  increasing := shiftPosition_strictMono place
  injective _ _ same := same
  onto := Use.shifted_surjective barrier

theorem barrierTranslation_carries (barrier : i.isBarrier = true) (cut : WireCut) :
    (barrierTranslation fits place barrier).Carries cut (cut.shifted place) where
  qubit u := by rw [WireCut.shifted_qubit]; rfl
  position position := shiftPosition_lt_iff place position cut

end Translation

section Proposals

theorem shifted_after (place position : Nat) (qubit : Int) :
    WireCut.shifted place ⟨position + 1, qubit⟩ = ⟨shiftPosition place position + 1, qubit⟩ := by
  by_cases before : position < place
  · have kept : ¬(place : Int) < (position : Int) + 1 := by omega
    rw [WireCut.shifted, if_neg kept, shiftPosition, if_pos before]
  · have past : (place : Int) < (position : Int) + 1 := by omega
    rw [WireCut.shifted, if_pos past, shiftPosition, if_neg before]
    rfl

theorem proposalAfter_shifted (place position : Nat) (i : Instruction) :
    (proposalAfter position i).map (WireCut.shifted place) =
      proposalAfter (shiftPosition place position) i := by
  rw [proposalAfter, proposalAfter]
  split
  · rfl
  · rw [Option.map_map]
    congr 1
    funext second
    exact shifted_after place position second

theorem proposalsFrom_succ {start : Nat} (before : place ≤ start) (data : List Instruction) :
    proposalsFrom (start + 1) data = (proposalsFrom start data).map (WireCut.shifted place) := by
  induction data generalizing start with
  | nil => rfl
  | cons i rest ih =>
      have moved : shiftPosition place start = start + 1 := if_neg (Nat.not_lt.mpr before)
      rw [proposalsFrom_cons, proposalsFrom_cons, List.map_append, ← Option.toList_map,
        proposalAfter_shifted, moved, ih (Nat.le_succ_of_le before)]

theorem proposalsFrom_insertIdx (barrier : i.isBarrier = true) (start place : Nat)
    (data : List Instruction) :
    proposalsFrom start (data.insertIdx place i) =
      (proposalsFrom start data).map (WireCut.shifted (start + place)) := by
  -- What stands before the insertion keeps its proposal, and the count goes on with it.
  induction place generalizing start data with
  | zero =>
      rw [List.insertIdx_zero, proposalsFrom, if_pos barrier]
      exact proposalsFrom_succ le_rfl data
  | succ place ih =>
      cases data with
      | nil => rfl
      | cons j rest =>
          have kept : shiftPosition (start + (place + 1)) start = start := if_pos (by omega)
          have next : start + 1 + place = start + (place + 1) := by omega
          rw [List.insertIdx_succ_cons, proposalsFrom_cons, proposalsFrom_cons, List.map_append,
            ← Option.toList_map, proposalAfter_shifted, kept, ih, next]

end Proposals

/-- A barrier anywhere in the circuit is passed over. The planner finds the same cuts, those after the
barrier one position later, and cuts that are moved so leave fragments of the same widths. -/
theorem barrier_transparent (c : Circuit) (place : Nat) (barrier : Instruction)
    (named : barrier.name = "barrier") (fits : barrier.FitsIn c.numQubits c.numClbits) :
    (∀ budget : Number, budget.atLeast 1 = true →
      ∃ cuts, (c.findCuts budget).outcome = .ok cuts ∧
        ((c.insertAt place barrier fits).findCuts budget).outcome =
          .ok (cuts.map (WireCut.shifted place))) ∧
    ∀ cuts : List WireCut,
      (c.insertAt place barrier fits).fragmentWidths (cuts.map (WireCut.shifted place)) =
        c.fragmentWidths cuts := by
  have passed : barrier.isBarrier = true := beq_iff_eq.mpr named
  let t := barrierTranslation fits place passed
  have carried : ∀ cut, t.Carries cut (cut.shifted place) := barrierTranslation_carries passed
  have proposals : (c.insertAt place barrier fits).proposals =
      c.proposals.map (WireCut.shifted place) := by
    have moved := proposalsFrom_insertIdx passed 0 place c.data
    rw [Nat.zero_add] at moved
    exact moved
  constructor
  · intro budget positive
    exact t.findCuts_map (fun cut _ => carried cut) proposals positive
  · intro cuts
    exact t.fragmentWidths_map fun cut _ => carried cut

def fence : Instruction := ⟨"barrier", [2, 0], [], []⟩

theorem fence_fits : fence.FitsIn relapse.numQubits relapse.numClbits := by decide

theorem relapse_fenced :
    (relapse.insertAt 1 fence fence_fits).data.map Instruction.name = ["cx", "barrier", "cx", "cx"] ∧
    (relapse.findCuts (.integer 1)).outcome = .ok [⟨1, 1⟩, ⟨2, 2⟩, ⟨3, 2⟩] ∧
    ((relapse.insertAt 1 fence fence_fits).findCuts (.integer 1)).outcome =
      .ok [⟨1, 1⟩, ⟨3, 2⟩, ⟨4, 2⟩] ∧
    (relapse.insertAt 1 fence fence_fits).fragmentWidths [⟨1, 1⟩, ⟨3, 2⟩] =
      relapse.fragmentWidths [⟨1, 1⟩, ⟨2, 2⟩] := by
  have found : (relapse.findCuts (.integer 1)).outcome = .ok [⟨1, 1⟩, ⟨2, 2⟩, ⟨3, 2⟩] := rfl
  have transparent := barrier_transparent relapse 1 fence rfl fence_fits
  rcases transparent.1 (.integer 1) (by decide) with ⟨cuts, planned, moved⟩
  rw [found] at planned
  cases planned
  exact ⟨rfl, found, moved, transparent.2 [⟨1, 1⟩, ⟨2, 2⟩]⟩

end Circuit
end QuasiCut
