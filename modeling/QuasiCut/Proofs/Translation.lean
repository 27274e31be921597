import Mathlib
import QuasiCut.Proofs.ClusterOrder
import QuasiCut.Proofs.ShortestPlan

/-! Circuits that use their qubits alike. When the uses of a circuit are those of another one at other
positions, in the same order, and on other qubits, then cuts that are moved along leave fragments of
the same widths, and the planner finds the moved cuts. -/

namespace QuasiCut

namespace Circuit

variable {c other : Circuit}

def proposalAfter (position : Nat) (i : Instruction) : Option WireCut :=
  if i.isBarrier then none else i.qubits[1]?.map fun second => ⟨position + 1, second⟩

theorem proposalsFrom_cons (position : Nat) (i : Instruction) (rest : List Instruction) :
    proposalsFrom position (i :: rest) =
      (proposalAfter position i).toList ++ proposalsFrom (position + 1) rest := by
  rw [proposalsFrom, proposalAfter]
  split
  · rfl
  · cases i.qubits with
    | nil => rfl
    | cons first others =>
        cases others with
        | nil => rfl
        | cons second others => rfl

/-- The uses of `other` are those of `c`, moved in order to other positions and other qubits. -/
structure Translation (c other : Circuit) where
  position : Nat → Nat
  qubit : Int → Int
  place : c.Use → other.Use
  position_place : ∀ u, (place u).position = position u.position
  qubit_place : ∀ u, (place u).qubit = qubit u.qubit
  increasing : StrictMono position
  injective : ∀ u v : c.Use, qubit u.qubit = qubit v.qubit → u.qubit = v.qubit
  onto : Function.Surjective place

namespace Translation

variable (t : Translation c other) {move : WireCut → WireCut} {cuts : List WireCut}

/-- The moved cut is on a moved qubit, or after a moved position, exactly if the cut was before. -/
structure Carries (cut moved : WireCut) : Prop where
  qubit : ∀ u : c.Use, moved.qubit = t.qubit u.qubit ↔ cut.qubit = u.qubit
  position : ∀ place : Nat,
    (t.position place : Int) < moved.position ↔ (place : Int) < cut.position

theorem severed_map (carried : ∀ cut ∈ cuts, t.Carries cut (move cut)) (u : c.Use)
    (first last : Nat) :
    Severed (cuts.map move) (t.qubit u.qubit) (t.position first) (t.position last) ↔
      Severed cuts u.qubit first last := by
  have alike : ∀ cut ∈ cuts, ((move cut).qubit = t.qubit u.qubit ∧
      (t.position first : Int) < (move cut).position ∧ (move cut).position ≤ t.position last) ↔
        (cut.qubit = u.qubit ∧ (first : Int) < cut.position ∧ cut.position ≤ last) := by
    intro cut member
    have moved := carried cut member
    -- A cut that is not after a position is before it, so one comparison settles both bounds.
    rw [moved.qubit u, moved.position first, ← Int.not_lt, moved.position last, Int.not_lt]
  constructor
  · intro severed
    rcases severed with ⟨image, member, separates⟩
    rcases List.mem_map.mp member with ⟨cut, listed, rfl⟩
    exact ⟨cut, listed, (alike cut listed).mp separates⟩
  · intro severed
    rcases severed with ⟨cut, listed, separates⟩
    exact ⟨move cut, List.mem_map_of_mem listed, (alike cut listed).mpr separates⟩

theorem segment_place (carried : ∀ cut ∈ cuts, t.Carries cut (move cut)) (u v : c.Use) :
    u.segment cuts = v.segment cuts ↔
      (t.place u).segment (cuts.map move) = (t.place v).segment (cuts.map move) := by
  have qubits : u.qubit = v.qubit ↔ t.qubit u.qubit = t.qubit v.qubit :=
    ⟨congrArg t.qubit, t.injective u v⟩
  have monotone := t.increasing.monotone
  rw [segment_eq_iff, segment_eq_iff, SameSegment, SameSegment, t.qubit_place, t.qubit_place,
    t.position_place, t.position_place, ← monotone.map_min, ← monotone.map_max,
    t.severed_map carried, qubits]

def embedding (carried : ∀ cut ∈ cuts, t.Carries cut (move cut)) :
    Embedding c cuts other (cuts.map move) where
  place := t.place
  together u v same := by rw [t.position_place, t.position_place, same]
  segments := t.segment_place carried

theorem fragmentWidths_map (carried : ∀ cut ∈ cuts, t.Carries cut (move cut)) :
    other.fragmentWidths (cuts.map move) = c.fragmentWidths cuts := by
  symm
  apply (t.embedding carried).fragmentWidths_eq t.onto
  intro u v before
  change (t.place u).position < (t.place v).position
  rw [t.position_place, t.position_place]
  exact t.increasing before

section Plan

variable {budget : Number} (carried : ∀ cut ∈ c.proposals, t.Carries cut (move cut))

include carried

theorem cutsFit_map (proposed : cuts <+: c.proposals) :
    other.cutsFit (cuts.map move) budget = c.cutsFit cuts budget := by
  rw [cutsFit, cutsFit, t.fragmentWidths_map fun cut member => carried cut (proposed.subset member)]

theorem placeCuts_map {placed rest : List WireCut} (proposed : placed ++ rest = c.proposals) :
    (other.placeCuts budget (placed.map move) (rest.map move)).outcome =
      (c.placeCuts budget placed rest).outcome.map (List.map move) := by
  -- Either search stops at the same proposal, since the fragments it leaves are equally wide.
  induction rest generalizing placed with
  | nil => rfl
  | cons cut rest ih =>
      have next : placed ++ [cut] ++ rest = c.proposals := by
        rw [List.append_assoc, List.singleton_append, proposed]
      have start : placed ++ [cut] <+: c.proposals := ⟨rest, next⟩
      have moved : placed.map move ++ [move cut] = (placed ++ [cut]).map move := by
        rw [List.map_append, List.map_singleton]
      rw [List.map_cons, placeCuts_cons, placeCuts_cons, moved, t.cutsFit_map carried start]
      cases c.cutsFit (placed ++ [cut]) budget with
      | true => rfl
      | false => exact ih next

/-- The planner finds the cuts that it finds for `c`, moved. -/
theorem findCuts_map (proposals : other.proposals = c.proposals.map move)
    (positive : budget.atLeast 1 = true) :
    ∃ cuts, (c.findCuts budget).outcome = .ok cuts ∧
      (other.findCuts budget).outcome = .ok (cuts.map move) := by
  have uncut : other.cutsFit [] budget = c.cutsFit [] budget :=
    t.cutsFit_map carried List.nil_prefix
  rcases findCuts_returns (c := c) positive with ⟨cuts, found⟩
  refine ⟨cuts, found, ?_⟩
  rw [findCuts_eq positive] at found ⊢
  rw [uncut, proposals]
  cases fit : c.cutsFit [] budget with
  | true =>
      rw [fit] at found
      cases found
      rfl
  | false =>
      rw [fit] at found
      have placed : (c.placeCuts budget [] c.proposals).outcome = .ok cuts := found
      have searched : (other.placeCuts budget [] (c.proposals.map move)).outcome =
          (c.placeCuts budget [] c.proposals).outcome.map (List.map move) :=
        t.placeCuts_map carried (List.nil_append c.proposals)
      rw [placed] at searched
      exact searched

end Plan

end Translation

end Circuit
end QuasiCut
