import Mathlib
import QuasiCut.Plan

/-! The cuts that a circuit accepts. The planner takes its cuts from a list of proposals that are
all accepted, so whatever it returns is accepted too. -/

namespace QuasiCut

namespace Circuit

variable {c : Circuit}

theorem mem_touched {q : Int} :
    q ∈ c.touched ↔ ∃ i ∈ c.data, i.isBarrier = false ∧ q ∈ i.qubits := by
  simp [touched, and_assoc]

theorem touched_inside {q : Int} (touched : q ∈ c.touched) : 0 ≤ q ∧ q < c.numQubits := by
  rcases mem_touched.mp touched with ⟨i, member, -, acted⟩
  exact (c.fits i member).1.2 q acted

structure Accepts (c : Circuit) (cut : WireCut) : Prop where
  low : 0 ≤ cut.position
  high : cut.position ≤ c.data.length
  touched : cut.qubit ∈ c.touched

theorem checkSite_eq_ok_iff (index : Nat) {cut : WireCut} :
    c.checkSite index cut.site = .ok () ↔ c.Accepts cut := by
  rw [checkSite_site]
  constructor
  · intro accepted
    split at accepted
    · cases accepted
    · next inside =>
        split at accepted
        · cases accepted
        · split at accepted
          · cases accepted
          · next touched => exact ⟨by omega, by omega, not_not.mp touched⟩
  · intro accepts
    have qubit := touched_inside accepts.touched
    simp [accepts.low, accepts.high, accepts.touched, qubit.1, qubit.2]

theorem checkCuts_eq_ok_iff {cuts : List WireCut} :
    c.checkCuts cuts = .ok () ↔ ∀ cut ∈ cuts, c.Accepts cut := by
  have scanned : ∀ index, c.checkSitesFrom index (cuts.map WireCut.site) = .ok () ↔
      ∀ cut ∈ cuts, c.Accepts cut := by
    induction cuts with
    | nil =>
        intro index
        simp [checkSitesFrom]
    | cons cut rest ih =>
        intro index
        rw [List.map_cons, checkSitesFrom, List.forall_mem_cons, ← ih (index + 1),
          ← checkSite_eq_ok_iff index]
        cases c.checkSite index cut.site with
        | error fault => exact iff_of_false (fun h => nomatch h) (fun h => nomatch h.1)
        | ok _ => exact (and_iff_right rfl).symm
  exact scanned 0

/-- The cut lies outside the circuit, or severs a qubit that the circuit does not have or that no
instruction but barriers acts on. -/
def Misplaced (c : Circuit) (cut : WireCut) : Prop :=
  ¬(0 ≤ cut.position ∧ cut.position ≤ c.data.length) ∨ ¬(0 ≤ cut.qubit ∧ cut.qubit < c.numQubits) ∨
    ∀ i ∈ c.data, i.isBarrier = false → cut.qubit ∉ i.qubits

theorem misplaced_iff {cut : WireCut} : c.Misplaced cut ↔ ¬c.Accepts cut := by
  constructor
  · intro misplaced accepts
    rcases misplaced with outside | missing | idle
    · exact outside ⟨accepts.low, accepts.high⟩
    · exact missing (touched_inside accepts.touched)
    · rcases mem_touched.mp accepts.touched with ⟨i, member, acting, acted⟩
      exact idle i member acting acted
  · intro refused
    by_contra placed
    simp only [Misplaced, not_or, not_not] at placed
    rcases placed with ⟨position, -, used⟩
    push Not at used
    exact refused ⟨position.1, position.2, mem_touched.mpr used⟩

theorem checkSite_fault_kind {index : Nat} {cut : WireCut} {fault : Fault}
    (refused : c.checkSite index cut.site = .error fault) : fault.kind = .value := by
  rw [checkSite_site] at refused
  split at refused
  · cases refused
    rfl
  · split at refused
    · cases refused
      rfl
    · split at refused
      · cases refused
        rfl
      · cases refused

theorem checkSitesFrom_fault_kind {cuts : List WireCut} {index : Nat}
    {fault : Fault} (refused : c.checkSitesFrom index (cuts.map WireCut.site) = .error fault) :
    fault.kind = .value := by
  induction cuts generalizing index with
  | nil => cases refused
  | cons cut rest ih =>
      rw [List.map_cons, checkSitesFrom] at refused
      cases first : c.checkSite index cut.site with
      | error other =>
          rw [first] at refused
          cases refused
          exact checkSite_fault_kind first
      | ok accepted =>
          rw [first] at refused
          exact ih refused

theorem mem_proposalsFrom {position : Nat} {data : List Instruction} {cut : WireCut}
    (member : cut ∈ proposalsFrom position data) :
    (position : Int) < cut.position ∧ cut.position ≤ position + data.length ∧
      ∃ i ∈ data, i.isBarrier = false ∧ cut.qubit ∈ i.qubits := by
  induction data generalizing position with
  | nil => cases member
  | cons i rest ih =>
      have later : cut ∈ proposalsFrom (position + 1) rest →
          (position : Int) < cut.position ∧ cut.position ≤ position + (i :: rest).length ∧
            ∃ j ∈ i :: rest, j.isBarrier = false ∧ cut.qubit ∈ j.qubits := by
        intro found
        rcases ih found with ⟨after, before, j, listed, acts⟩
        rw [List.length_cons]
        exact ⟨by omega, by omega, j, List.mem_cons_of_mem i listed, acts⟩
      rw [proposalsFrom] at member
      split at member
      · exact later member
      · next acting =>
          split at member
          · next first second others qubits =>
              rcases List.mem_cons.mp member with rfl | found
              · have acted : second ∈ i.qubits := by simp [qubits]
                rw [List.length_cons]
                refine ⟨?_, ?_, i, List.mem_cons_self, Bool.eq_false_iff.mpr acting, acted⟩
                · exact Int.lt_succ position
                · show (position : Int) + 1 ≤ position + (rest.length + 1 : Nat)
                  omega
              · exact later found
          · exact later member

theorem proposals_accepted {cut : WireCut} (member : cut ∈ c.proposals) : c.Accepts cut := by
  rcases mem_proposalsFrom member with ⟨after, before, acts⟩
  exact ⟨by omega, by omega, mem_touched.mpr acts⟩

theorem placeCuts_outcome (budget : Number) (placed rest : List WireCut) :
    ∃ taken, taken <+: rest ∧
      (c.placeCuts budget placed rest).outcome = .ok (placed ++ taken) := by
  induction rest generalizing placed with
  | nil =>
      refine ⟨[], List.nil_prefix, ?_⟩
      rw [List.append_nil]
      rfl
  | cons cut rest ih =>
      rw [placeCuts]
      cases fit : withinBudget (c.fragmentWidths (placed ++ [cut])) budget with
      | true => exact ⟨[cut], by simp, rfl⟩
      | false =>
          rcases ih (placed ++ [cut]) with ⟨taken, start, returned⟩
          refine ⟨cut :: taken, List.cons_prefix_cons.mpr ⟨rfl, start⟩, ?_⟩
          simpa [fit] using returned

theorem findCuts_proposed {budget : Number} {cuts : List WireCut}
    (returned : (c.findCuts budget).outcome = .ok cuts) : cuts <+: c.proposals := by
  rw [findCuts] at returned
  split at returned
  · cases returned
  · split at returned
    · cases returned
      exact List.nil_prefix
    · split at returned
      · cases returned
        exact List.nil_prefix
      · rcases c.placeCuts_outcome budget [] c.proposals with ⟨taken, start, placed⟩
        rw [placed] at returned
        cases returned
        exact start

theorem findCuts_accepted {budget : Number} {cuts : List WireCut}
    (returned : (c.findCuts budget).outcome = .ok cuts) : c.checkCuts cuts = .ok () := by
  rw [checkCuts_eq_ok_iff]
  intro cut member
  exact proposals_accepted ((findCuts_proposed returned).subset member)

end Circuit
end QuasiCut
