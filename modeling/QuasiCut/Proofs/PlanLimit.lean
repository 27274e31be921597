import Mathlib
import QuasiCut.Proofs.Feasibility
import QuasiCut.Proofs.Overhead

/-! When a plan is returned. Cuts are found for every circuit, but the overhead of 512 cuts is beyond
the binary64 numbers, and then there is no plan: neither the cuts nor their widths are reported. -/

namespace QuasiCut

namespace Circuit

variable {c : Circuit} {budget : Number}

theorem findCuts_returns (positive : budget.atLeast 1 = true) :
    ∃ cuts, (c.findCuts budget).outcome = .ok cuts := by
  rw [findCuts, Number.below_of_atLeast positive]
  simp only [Bool.false_eq_true, if_false]
  split
  · exact ⟨[], rfl⟩
  · split
    · exact ⟨[], rfl⟩
    · rcases c.placeCuts_outcome budget [] c.proposals with ⟨taken, -, placed⟩
      exact ⟨_, placed⟩

theorem proposals_length (c : Circuit) : c.proposals.length = c.crossings.length :=
  (proposalsFrom_seversAfter 0 c.data).length_eq

end Circuit

namespace Device

variable (device : Device) {c : Circuit} {cuts : List WireCut}

theorem plan_of_found (found : (c.findCuts device.width).outcome = .ok cuts) :
    (device.plan c).outcome = (samplingOverhead cuts.length 0).map fun overhead =>
      ⟨cuts, c.fragmentWidths cuts, c.cutsFit cuts device.width, overhead⟩ := by
  rw [plan, Report.outcome_bind_of_ok found, Report.outcome_liftM_bind]
  rfl

theorem plan_returned (found : (c.findCuts device.width).outcome = .ok cuts)
    (few : cuts.length < 512) :
    ∃ overhead, samplingOverhead cuts.length 0 = .ok overhead ∧
      (device.plan c).outcome =
        .ok ⟨cuts, c.fragmentWidths cuts, c.cutsFit cuts device.width, overhead⟩ := by
  have computed := (samplingOverhead_wires cuts.length).mpr few
  rw [device.plan_of_found found]
  cases priced : samplingOverhead cuts.length 0 with
  | error fault =>
      rw [priced] at computed
      cases computed
  | ok overhead => exact ⟨overhead, rfl, rfl⟩

theorem plan_refused (found : (c.findCuts device.width).outcome = .ok cuts)
    (many : 512 ≤ cuts.length) :
    ∃ fault, (device.plan c).outcome = .error fault ∧ fault.kind = .overflow := by
  rw [device.plan_of_found found]
  cases priced : samplingOverhead cuts.length 0 with
  | error fault =>
      rw [← Int.natCast_zero] at priced
      exact ⟨fault, rfl, samplingOverhead_fault_kind priced⟩
  | ok overhead =>
      have few : cuts.length < 512 := by
        rw [← samplingOverhead_wires, priced]
        rfl
      omega

/-- Cuts are found for every circuit and device, at most one for each instruction on several qubits,
and just as many if some instruction is wider than the device. With fewer than 512 cuts there is a
plan, whether or not it meets the budget; with more there is none. -/
theorem plan_limit (device : Device) (c : Circuit) (positive : device.width.atLeast 1 = true) :
    ∃ cuts, (c.findCuts device.width).outcome = .ok cuts ∧
      cuts.length ≤ c.crossings.length ∧
      ((∃ i ∈ c.data, i.isBarrier = false ∧ device.width.atLeast i.qubits.length = false) →
        cuts.length = c.crossings.length) ∧
      (cuts.length < 512 → ∃ overhead, samplingOverhead cuts.length 0 = .ok overhead ∧
        (device.plan c).outcome =
          .ok ⟨cuts, c.fragmentWidths cuts, c.cutsFit cuts device.width, overhead⟩) ∧
      (512 ≤ cuts.length →
        ∃ fault, (device.plan c).outcome = .error fault ∧ fault.kind = .overflow) := by
  rcases Circuit.findCuts_returns positive with ⟨cuts, found⟩
  refine ⟨cuts, found, ?_, ?_, device.plan_returned found,
    device.plan_refused found⟩
  · rw [← c.proposals_length]
    exact (Circuit.findCuts_proposed found).length_le
  · intro wide
    rcases wide with ⟨i, present, acting, narrow⟩
    rw [Circuit.findCuts_unfit positive present acting narrow] at found
    cases found
    exact c.proposals_length

end Device

namespace Circuit

theorem repeated_fits (count : Nat) :
    ∀ i ∈ List.replicate count (⟨"cx", [0, 1], [], []⟩ : Instruction), i.FitsIn 2 0 := by
  intro i member
  rw [List.eq_of_mem_replicate member]
  decide

def repeated (count : Nat) : Circuit :=
  (empty [⟨"q", 2⟩] []).withData (List.replicate count ⟨"cx", [0, 1], [], []⟩) (repeated_fits count)

theorem repeated_crossings (count : Nat) : (repeated count).crossings.length = count := by
  have all : (repeated count).crossings = (repeated count).data.zipIdx := by
    apply List.filter_eq_self.mpr
    intro entry member
    have present := List.mem_of_getElem? (List.mem_zipIdx_iff_getElem?.mp member)
    rw [List.eq_of_mem_replicate present]
    decide
  rw [all, List.length_zipIdx]
  exact List.length_replicate

theorem mem_repeated {count : Nat} (some : 0 < count) :
    (⟨"cx", [0, 1], [], []⟩ : Instruction) ∈ (repeated count).data :=
  List.mem_replicate.mpr ⟨some.ne', rfl⟩

theorem repeated_found {count : Nat} (some : 0 < count) :
    ∃ cuts, ((repeated count).findCuts (.integer 1)).outcome = .ok cuts ∧ cuts.length = count := by
  refine ⟨(repeated count).proposals, ?_, ?_⟩
  · rw [findCuts_unfit (by decide) (mem_repeated some) (by decide) (by decide)]
  · rw [proposals_length, repeated_crossings]

end Circuit

namespace Device

theorem repeated_plan_limit :
    (∃ plan, ((⟨.integer 1⟩ : Device).plan (Circuit.repeated 511)).outcome = .ok plan ∧
      plan.cuts.length = 511) ∧
    ∃ fault, ((⟨.integer 1⟩ : Device).plan (Circuit.repeated 512)).outcome = .error fault ∧
      fault.kind = .overflow := by
  have wide : ∀ {count : Nat}, 0 < count → ∃ i ∈ (Circuit.repeated count).data,
      i.isBarrier = false ∧ (Number.integer 1).atLeast i.qubits.length = false := by
    intro count some
    exact ⟨_, Circuit.mem_repeated some, by decide, by decide⟩
  rcases plan_limit ⟨.integer 1⟩ (Circuit.repeated 511) (by decide) with
    ⟨cuts, -, -, all, returned, -⟩
  rcases plan_limit ⟨.integer 1⟩ (Circuit.repeated 512) (by decide) with
    ⟨cuts', -, -, all', -, refused⟩
  have few := (all (wide (by decide))).trans (Circuit.repeated_crossings 511)
  have many := (all' (wide (by decide))).trans (Circuit.repeated_crossings 512)
  rcases returned (by omega) with ⟨overhead, -, plan⟩
  exact ⟨⟨_, plan, few⟩, refused (by omega)⟩

theorem repeated_plan_refused :
    Device.make (.integer 1) = .ok ⟨.integer 1⟩ ∧
      ¬∃ plan, ((⟨.integer 1⟩ : Device).plan (Circuit.repeated 512)).outcome = .ok plan := by
  refine ⟨rfl, ?_⟩
  intro returned
  rcases returned with ⟨plan, returned⟩
  rcases Circuit.repeated_found (by decide : 0 < 512) with ⟨cuts, found, length⟩
  rcases plan_refused ⟨.integer 1⟩ found length.ge with ⟨fault, refused, -⟩
  rw [returned] at refused
  cases refused

end Device
end QuasiCut
