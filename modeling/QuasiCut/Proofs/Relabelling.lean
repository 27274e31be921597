import Mathlib
import QuasiCut.Proofs.Translation

/-! Renamed qubits. Fragments and planned cuts depend on the order in which qubits are used and not on
their numbers, so they are carried along when the qubits of a circuit are renamed, also into a wider
circuit. -/

namespace QuasiCut

namespace Circuit

variable {c : Circuit} {qregs : List Register}

def HasQubit (c : Circuit) (qubit : Int) : Prop := 0 ≤ qubit ∧ qubit < c.numQubits

/-- An injective map of the qubits of `c` to those of other registers. -/
structure Relabelling (c : Circuit) (qregs : List Register) where
  target : Int → Int
  inside : ∀ qubit, c.HasQubit qubit →
    0 ≤ target qubit ∧ target qubit < Register.total qregs
  injective : ∀ first second, c.HasQubit first → c.HasQubit second →
    target first = target second → first = second

namespace Relabelling

variable (r : c.Relabelling qregs)

def instruction (i : Instruction) : Instruction := { i with qubits := i.qubits.map r.target }

def cut (cut : WireCut) : WireCut := { cut with qubit := r.target cut.qubit }

theorem placed {qubits : List Int} (inside : Placed c.numQubits qubits) :
    Placed (Register.total qregs) (qubits.map r.target) := by
  constructor
  · apply inside.1.map_on
    intro first member second member' same
    exact r.injective first second (inside.2 first member) (inside.2 second member') same
  · intro image member
    rcases List.mem_map.mp member with ⟨qubit, listed, rfl⟩
    exact r.inside qubit (inside.2 qubit listed)

end Relabelling

def relabel (c : Circuit) (r : c.Relabelling qregs) : Circuit where
  name := c.name
  phase := c.phase
  qregs := qregs
  cregs := c.cregs
  data := c.data.map r.instruction
  fits := by
    intro image member
    rcases List.mem_map.mp member with ⟨i, present, rfl⟩
    exact ⟨r.placed (c.fits i present).1, (c.fits i present).2⟩

theorem Use.hasQubit (u : c.Use) : c.HasQubit u.qubit := touched_inside u.touched

namespace Relabelling

variable (r : c.Relabelling qregs)

def use (u : c.Use) : (c.relabel r).Use where
  position := u.position
  qubit := r.target u.qubit
  acts := by
    rcases u.acts with ⟨i, present, acting, used⟩
    have renamed : (c.data.map r.instruction)[u.position]? = some (r.instruction i) := by
      rw [List.getElem?_map, present]
      rfl
    exact ⟨r.instruction i, renamed, acting, List.mem_map_of_mem used⟩

theorem use_surjective : Function.Surjective r.use := by
  intro v
  rcases v.acts with ⟨image, found, acting, used⟩
  have renamed : (c.data.map r.instruction)[v.position]? = some image := found
  rw [List.getElem?_map, Option.map_eq_some_iff] at renamed
  rcases renamed with ⟨i, present, rfl⟩
  rcases List.mem_map.mp used with ⟨qubit, listed, same⟩
  exact ⟨⟨v.position, qubit, i, present, acting, listed⟩, Use.ext rfl same⟩

def translation : Translation c (c.relabel r) where
  position := id
  qubit := r.target
  place := r.use
  position_place _ := rfl
  qubit_place _ := rfl
  increasing := strictMono_id
  injective u v := r.injective u.qubit v.qubit u.hasQubit v.hasQubit
  onto := r.use_surjective

theorem carries {cut : WireCut} (present : c.HasQubit cut.qubit) :
    r.translation.Carries cut (r.cut cut) where
  qubit u := ⟨r.injective cut.qubit u.qubit present u.hasQubit, congrArg r.target⟩
  position _ := Iff.rfl

theorem proposalAfter_instruction (position : Nat) (i : Instruction) :
    proposalAfter position (r.instruction i) = (proposalAfter position i).map r.cut := by
  have named : (r.instruction i).isBarrier = i.isBarrier := rfl
  have qubits : (r.instruction i).qubits = i.qubits.map r.target := rfl
  rw [proposalAfter, proposalAfter, named, qubits]
  split
  · rfl
  · rw [List.getElem?_map, Option.map_map, Option.map_map]
    rfl

theorem proposalsFrom_map (start : Nat) (data : List Instruction) :
    proposalsFrom start (data.map r.instruction) = (proposalsFrom start data).map r.cut := by
  induction data generalizing start with
  | nil => rfl
  | cons i rest ih =>
      rw [List.map_cons, proposalsFrom_cons, proposalsFrom_cons, List.map_append,
        ← Option.toList_map, r.proposalAfter_instruction, ih]

end Relabelling

/-- The planner does not look at the numbers of qubits. For the renamed circuit it finds the same cuts on
the renamed qubits, and cuts that are renamed so leave fragments of the same widths in the same
order. -/
theorem relabel_carries_plan (c : Circuit) {qregs : List Register} (r : c.Relabelling qregs) :
    (∀ budget : Number, budget.atLeast 1 = true →
      ∃ cuts, (c.findCuts budget).outcome = .ok cuts ∧
        ((c.relabel r).findCuts budget).outcome = .ok (cuts.map r.cut)) ∧
    ∀ cuts : List WireCut, (∀ cut ∈ cuts, c.HasQubit cut.qubit) →
      (c.relabel r).fragmentWidths (cuts.map r.cut) = c.fragmentWidths cuts := by
  constructor
  · intro budget positive
    apply r.translation.findCuts_map _ (r.proposalsFrom_map 0 c.data) positive
    intro cut proposed
    exact r.carries (touched_inside (proposals_accepted proposed).touched)
  · intro cuts present
    exact r.translation.fragmentWidths_map fun cut member => r.carries (present cut member)

theorem relapse_hasQubit {qubit : Int} : relapse.HasQubit qubit ↔ 0 ≤ qubit ∧ qubit < 3 := Iff.rfl

def mirrored : relapse.Relabelling [⟨"q", 6⟩] where
  target qubit := 5 - 2 * qubit
  inside qubit present := by
    rw [relapse_hasQubit] at present
    change 0 ≤ 5 - 2 * qubit ∧ 5 - 2 * qubit < 6
    omega
  injective first second _ _ same := by omega

theorem relapse_mirrored :
    (relapse.relabel mirrored).data.map Instruction.qubits = [[5, 3], [3, 1], [3, 1]] ∧
    (relapse.findCuts (.integer 1)).outcome = .ok [⟨1, 1⟩, ⟨2, 2⟩, ⟨3, 2⟩] ∧
    ((relapse.relabel mirrored).findCuts (.integer 1)).outcome = .ok [⟨1, 3⟩, ⟨2, 1⟩, ⟨3, 1⟩] ∧
    (relapse.relabel mirrored).fragmentWidths [⟨2, 3⟩, ⟨-1, 5⟩] =
      relapse.fragmentWidths [⟨2, 1⟩, ⟨-1, 0⟩] := by
  have found : (relapse.findCuts (.integer 1)).outcome = .ok [⟨1, 1⟩, ⟨2, 2⟩, ⟨3, 2⟩] := rfl
  have carried := relabel_carries_plan relapse mirrored
  have present : ∀ cut ∈ [WireCut.mk 2 1, WireCut.mk (-1) 0], relapse.HasQubit cut.qubit := by
    simp [relapse_hasQubit]
  rcases carried.1 (.integer 1) (by decide) with ⟨cuts, planned, renamed⟩
  rw [found] at planned
  cases planned
  exact ⟨rfl, found, renamed, carried.2 _ present⟩

end Circuit
end QuasiCut
