import Mathlib
import QuasiCut.Proofs.GateChoices
import QuasiCut.Proofs.LinkedQubits

/-! Cutting gates as removing them. A term acts on single qubits, so it links nothing: an experiment
falls apart into the same fragments as the circuit without the gates that are cut. -/

namespace QuasiCut

namespace Instruction

theorem localTerms_single {α : Type} [Coefficient α] {i : Instruction} {term : GateTerm α}
    (listed : term ∈ i.localTerms) : ∀ op ∈ term.operations, op.qubits.length = 1 := by
  intro op member
  rcases List.mem_map.mp listed with ⟨entry, -, rfl⟩
  rcases List.mem_flatMap.mp member with ⟨side, -, named⟩
  rcases List.mem_map.mp named with ⟨name, -, rfl⟩
  rfl

theorem localTerms_operations (α : Type) [Coefficient α] (i : Instruction) :
    (i.localTerms : List (GateTerm α)).map GateTerm.operations =
      (i.localTerms : List (GateTerm ℚ)).map GateTerm.operations := by
  simp only [localTerms, basis]
  split
  · rfl
  · split <;> rfl

end Instruction

namespace Circuit

variable {α : Type} {c : Circuit} {gates : List Int}

section Experiments

variable [Coefficient α]

theorem chosenTerms_localTerms (cut : List (Nat × Instruction)) (chosen : List Nat) :
    chosenTerms (cut.map fun (position, i) => (position, (i.localTerms : List (GateTerm α)))) chosen =
      chosenTerms (cut.map fun (position, i) => (position, (i.localTerms : List (GateTerm ℚ))))
        chosen := by
  simp only [chosenTerms, List.zip_map_left, List.map_map, ← List.getElem?_map]
  apply List.map_congr_left
  intro entry _
  simp only [Function.comp_apply, Prod.map_fst, Prod.map_snd, id_eq,
    Instruction.localTerms_operations α]

theorem exists_expansion [One α] [Mul α] {cutting : GateCutting α}
    (returned : (c.cutGates gates).outcome = .ok cutting) {e : Experiment α}
    (member : e ∈ cutting.experiments) :
    ∃ chosen, chosen.length = (c.cuttable gates).length ∧
      e.circuit = c.expansion gates chosen := by
  unfold cutGates at returned
  rcases Report.outcome_bind_eq_ok returned with ⟨_, -, rest⟩
  have rest := (Report.outcome_ite_emit _ _).symm.trans rest
  rw [c.mapM_standard gates, pure_bind, c.mapM_locate gates, pure_bind] at rest
  rcases Report.outcome_bind_eq_ok rest with ⟨configurations, enumerated, rest⟩
  rcases Report.outcome_bind_eq_ok rest with ⟨experiments, built, rest⟩
  rcases Report.outcome_bind_eq_ok rest with ⟨overhead, -, final⟩
  cases final
  rw [Report.outcome_mapM] at built
  rcases mem_of_mapM_ok built member with ⟨⟨chosen, weight⟩, listed, made⟩
  refine ⟨chosen, ?_, ?_⟩
  · have admissible := Configuration.enumerate_admissible enumerated _ listed
    rw [admissible.length_eq, List.length_map]
  · have expanded : c.expand ((c.cuttable gates).map fun (position, i) =>
        (position, (i.localTerms : List (GateTerm α)))) chosen = .ok (c.expansion gates chosen) := by
      rw [expand, chosenTerms_localTerms]
      exact c.expand_eq gates chosen
    rcases Report.outcome_bind_eq_ok made with ⟨circuit, found, final⟩
    cases final
    cases expanded.symm.trans found
    rfl

end Experiments

theorem withoutGates_fits (c : Circuit) (keep : Instruction × Nat → Bool) :
    ∀ i ∈ (c.data.zipIdx.filter keep).map Prod.fst, i.FitsIn c.numQubits c.numClbits := by
  intro i member
  rcases List.mem_map.mp member with ⟨entry, kept, rfl⟩
  have present := List.mem_zipIdx_iff_getElem?.mp (List.mem_filter.mp kept).1
  exact c.fits entry.1 (List.mem_of_getElem? present)

/-- The circuit without the listed gates that can be cut. -/
def withoutGates (c : Circuit) (gates : List Int) : Circuit :=
  c.withData
    ((c.data.zipIdx.filter fun entry =>
      !(entry.1.isCuttable && decide ((entry.2 : Int) ∈ gates))).map Prod.fst)
    (c.withoutGates_fits _)

theorem mem_withoutGates {i : Instruction} :
    i ∈ (c.withoutGates gates).data ↔
      ∃ position : Nat, c.data[position]? = some i ∧
        ¬(i.isCuttable = true ∧ (position : Int) ∈ gates) := by
  simp [withoutGates, withData, List.mem_zipIdx_iff_getElem?, imp_iff_not_or]

section Accepted

variable (inside : ∀ gate ∈ gates, 0 ≤ gate ∧ gate < c.data.length)

include inside

theorem mem_cuttable_positions {position : Nat} {i : Instruction}
    (present : c.data[position]? = some i) :
    position ∈ (c.cuttable gates).map Prod.fst ↔
      i.isCuttable = true ∧ (position : Int) ∈ gates := by
  rw [List.mem_map]
  constructor
  · intro found
    rcases found with ⟨⟨place, j⟩, listed, rfl⟩
    rcases mem_cuttable.mp listed with ⟨⟨gate, named, rfl⟩, same, cut⟩
    rw [present] at same
    cases same
    rw [Int.toNat_of_nonneg (inside gate named).1]
    exact ⟨cut, named⟩
  · intro found
    exact ⟨(position, i), mem_cuttable.mpr
      ⟨⟨position, found.2, Int.toNat_natCast position⟩, present, found.1⟩, rfl⟩

theorem lookup_kept {position : Nat} {i : Instruction} (present : c.data[position]? = some i)
    (kept : ¬(i.isCuttable = true ∧ (position : Int) ∈ gates)) (chosen : List Nat) :
    (chosenTerms (c.located gates) chosen).lookup position = none := by
  apply lookup_eq_none_of_fresh
  apply chosenTerms_positions
  rw [located, List.map_map]
  exact fun listed => kept ((mem_cuttable_positions inside present).mp listed)

theorem lookup_cut {position : Nat} {i : Instruction} (present : c.data[position]? = some i)
    (cut : i.isCuttable = true ∧ (position : Int) ∈ gates) {chosen : List Nat}
    (length : chosen.length = (c.cuttable gates).length) :
    ∃ operations, (chosenTerms (c.located gates) chosen).lookup position = some operations ∧
      ∀ op ∈ operations, op.qubits.length = 1 := by
  have positions : (chosenTerms (c.located gates) chosen).map Prod.fst =
      (c.cuttable gates).map Prod.fst := by
    have paired : ((c.located gates).zip chosen).map Prod.fst = c.located gates := by
      apply List.map_fst_zip
      rw [located, List.length_map, length]
    calc
      (chosenTerms (c.located gates) chosen).map Prod.fst =
          (((c.located gates).zip chosen).map Prod.fst).map Prod.fst := by
        rw [chosenTerms, List.map_map, List.map_map]
        rfl
      _ = (c.cuttable gates).map Prod.fst := by
        rw [paired, located, List.map_map]
        rfl
  cases found : (chosenTerms (c.located gates) chosen).lookup position with
  | none =>
      have listed := (mem_cuttable_positions inside present).mpr cut
      rw [← positions] at listed
      rcases List.mem_map.mp listed with ⟨entry, member, rfl⟩
      have missed := List.lookup_eq_none_iff.mp found entry member
      simp at missed
  | some operations =>
      refine ⟨operations, rfl, ?_⟩
      intro op acts
      rcases List.lookup_eq_some_iff.mp found with ⟨before, after, split, -⟩
      have member : (position, operations) ∈ chosenTerms (c.located gates) chosen := by simp [split]
      rcases mem_chosenTerms member acts with ⟨place, listed, term, terms, acts⟩
      rcases List.mem_map.mp listed with ⟨gate, -, rfl⟩
      exact Instruction.localTerms_single terms op acts

omit inside in
theorem mem_expansion {chosen : List Nat} {i : Instruction} :
    i ∈ (c.expansion gates chosen).data ↔
      ∃ (position : Nat) (j : Instruction), c.data[position]? = some j ∧
        i ∈ ((chosenTerms (c.located gates) chosen).lookup position).getD [j] := by
  show i ∈ replaceFrom (chosenTerms (c.located gates) chosen) 0 c.data ↔ _
  rw [replaceFrom_eq_flatMap, List.mem_flatMap]
  constructor
  · intro found
    rcases found with ⟨⟨j, position⟩, listed, acts⟩
    exact ⟨position, j, List.mem_zipIdx_iff_getElem?.mp listed, acts⟩
  · intro found
    rcases found with ⟨position, j, present, acts⟩
    exact ⟨(j, position), List.mem_zipIdx_iff_getElem?.mpr present, acts⟩

theorem withoutGates_subset_expansion (chosen : List Nat) {i : Instruction}
    (member : i ∈ (c.withoutGates gates).data) : i ∈ (c.expansion gates chosen).data := by
  rcases mem_withoutGates.mp member with ⟨position, present, kept⟩
  refine mem_expansion.mpr ⟨position, i, present, ?_⟩
  rw [lookup_kept inside present kept]
  exact List.mem_singleton_self i

theorem expansion_narrow {chosen : List Nat} (length : chosen.length = (c.cuttable gates).length)
    {i : Instruction} (member : i ∈ (c.expansion gates chosen).data) :
    i ∈ (c.withoutGates gates).data ∨ i.qubits.length ≤ 1 := by
  rcases mem_expansion.mp member with ⟨position, j, present, acts⟩
  by_cases cut : j.isCuttable = true ∧ (position : Int) ∈ gates
  · rcases lookup_cut inside present cut length with ⟨operations, found, single⟩
    rw [found] at acts
    exact Or.inr (single i acts).le
  · rw [lookup_kept inside present cut] at acts
    rw [List.mem_singleton.mp acts]
    exact Or.inl (mem_withoutGates.mpr ⟨position, present, cut⟩)

end Accepted

theorem cutGates_inside [One α] [Mul α] [Coefficient α] {cutting : GateCutting α}
    (returned : (c.cutGates gates).outcome = .ok cutting) :
    ∀ gate ∈ gates, 0 ≤ gate ∧ gate < c.data.length := by
  unfold cutGates at returned
  rcases Report.outcome_bind_eq_ok returned with ⟨_, checked, -⟩
  exact ((c.checkGates_eq_ok_iff gates).mp checked).2

/-- An experiment fits a budget exactly if the circuit without the gates that are cut does, and both
do if the circuit does. -/
theorem cutGates_fit_iff [One α] [Mul α] [Coefficient α] (c : Circuit) (gates : List Int)
    (cutting : GateCutting α) (returned : (c.cutGates gates).outcome = .ok cutting)
    (budget : Number) (positive : budget.atLeast 1 = true) :
    ∀ e ∈ cutting.experiments,
      (e.circuit.cutsFit [] budget = true ↔ (c.withoutGates gates).cutsFit [] budget = true) ∧
      (c.cutsFit [] budget = true →
        e.circuit.cutsFit [] budget = true ∧ (c.withoutGates gates).cutsFit [] budget = true) := by
  intro e member
  have inside := cutGates_inside returned
  rcases exists_expansion returned member with ⟨chosen, length, same⟩
  have same_fit : e.circuit.cutsFit [] budget = true ↔
      (c.withoutGates gates).cutsFit [] budget = true := by
    rw [same]
    constructor
    · apply cutsFit_of_transfer _ positive
      intro i kept
      exact Or.inl (withoutGates_subset_expansion inside chosen kept)
    · apply cutsFit_of_transfer _ positive
      intro i expanded
      exact expansion_narrow inside length expanded
  have removed : c.cutsFit [] budget = true → (c.withoutGates gates).cutsFit [] budget = true := by
    apply cutsFit_of_transfer _ positive
    intro i kept
    rcases mem_withoutGates.mp kept with ⟨position, present, -⟩
    exact Or.inl (List.mem_of_getElem? present)
  exact ⟨same_fit, fun fit => ⟨same_fit.mpr (removed fit), removed fit⟩⟩

theorem crossed_fit_iff :
    (crossed.cutsFit [] (.integer 1) = false ∧
      ∃ cutting, (crossed.cutGates [2, 1, 0] : Report (GateCutting Binary64)).outcome = .ok cutting ∧
        cutting.experiments.length = 16 ∧
          ∀ e ∈ cutting.experiments, e.circuit.cutsFit [] (.integer 1) = true) ∧
    (crossed.cutsFit [] (.integer 2) = true ∧
      ∃ cutting, (crossed.cutGates [0] : Report (GateCutting Binary64)).outcome = .ok cutting ∧
        cutting.experiments.length = 4 ∧
          ∀ e ∈ cutting.experiments, e.circuit.cutsFit [] (.integer 1) = false ∧
            e.circuit.cutsFit [] (.integer 2) = true) := by
  refine ⟨⟨by decide, _, rfl, rfl, ?_⟩, by decide, _, rfl, rfl, ?_⟩
  · intro e member
    exact ((cutGates_fit_iff crossed [2, 1, 0] _ rfl (.integer 1) (by decide)) e member).1.mpr
      (by decide)
  · intro e member
    have narrow := cutGates_fit_iff crossed [0] _ rfl (.integer 1) (by decide) e member
    have wide := cutGates_fit_iff crossed [0] _ rfl (.integer 2) (by decide) e member
    refine ⟨?_, (wide.2 (by decide)).1⟩
    rw [Bool.eq_false_iff]
    intro fit
    exact absurd (narrow.1.mp fit) (by decide)

end Circuit
end QuasiCut
