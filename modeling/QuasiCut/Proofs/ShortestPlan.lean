import Mathlib
import QuasiCut.Proofs.LinkedQubits
import QuasiCut.Proofs.PlanLimit

/-! The planner as a search for the shortest start of its proposals that fits. A longer start may fail
where a shorter one does not, so it matters that the starts are tried in turn. -/

namespace QuasiCut

namespace Circuit

variable {c : Circuit} {budget : Number}

/-- A start of the proposals that fits while no shorter one does, or all of them if none does. -/
structure ShortestFit (c : Circuit) (budget : Number) (proposed cuts : List WireCut) : Prop where
  start : cuts <+: proposed
  shorter : ∀ part, part <+: proposed → part.length < cuts.length → c.cutsFit part budget = false
  fits : c.cutsFit cuts budget = true ∨ cuts = proposed

section Search

theorem placeCuts_cons (budget : Number) (placed : List WireCut) (cut : WireCut)
    (rest : List WireCut) :
    (c.placeCuts budget placed (cut :: rest)).outcome =
      if c.cutsFit (placed ++ [cut]) budget then .ok (placed ++ [cut])
      else (c.placeCuts budget (placed ++ [cut]) rest).outcome := by
  rw [placeCuts, Report.outcome_emit_bind]
  show (ite (c.cutsFit (placed ++ [cut]) budget = true) _ _ : Report (List WireCut)).outcome = _
  split
  · rfl
  · rfl

def NoneFits (c : Circuit) (budget : Number) (placed : List WireCut) : Prop :=
  ∀ part, part <+: placed → c.cutsFit part budget = false

theorem NoneFits.concat {placed : List WireCut} (unfit : c.NoneFits budget placed) {cut : WireCut}
    (next : c.cutsFit (placed ++ [cut]) budget = false) : c.NoneFits budget (placed ++ [cut]) := by
  intro part start
  rcases List.prefix_concat_iff.mp start with whole | earlier
  · rw [whole]
    exact next
  · exact unfit part earlier

theorem NoneFits.shortestFit {placed : List WireCut} (unfit : c.NoneFits budget placed)
    {cut : WireCut} (fit : c.cutsFit (placed ++ [cut]) budget = true) (rest : List WireCut) :
    c.ShortestFit budget (placed ++ cut :: rest) (placed ++ [cut]) := by
  constructor
  · have start := List.prefix_append (placed ++ [cut]) rest
    rw [List.append_assoc, List.singleton_append] at start
    exact start
  · intro part start short
    rw [List.length_append, List.length_singleton] at short
    have inside : placed <+: placed ++ cut :: rest := List.prefix_append placed _
    exact unfit part (List.prefix_of_prefix_length_le start inside (by omega))
  · exact Or.inl fit

theorem placeCuts_shortestFit {placed : List WireCut} (unfit : c.NoneFits budget placed)
    (rest : List WireCut) :
    ∃ cuts, (c.placeCuts budget placed rest).outcome = .ok cuts ∧
      c.ShortestFit budget (placed ++ rest) cuts := by
  -- No start of what is placed fits, as long as the search goes on.
  induction rest generalizing placed with
  | nil =>
      refine ⟨placed, rfl, ?_⟩
      rw [List.append_nil]
      exact ⟨List.prefix_rfl, fun part start _ => unfit part start, Or.inr rfl⟩
  | cons cut rest ih =>
      rw [placeCuts_cons]
      cases fit : c.cutsFit (placed ++ [cut]) budget with
      | true => exact ⟨placed ++ [cut], rfl, unfit.shortestFit fit rest⟩
      | false =>
          have later := ih (unfit.concat fit)
          rw [List.append_assoc, List.singleton_append] at later
          exact later

end Search

section Shortcut

theorem width_le_touched (f : c.Cluster []) : f.width ≤ c.touched.length := by
  rcases f.exists_use with ⟨u, rfl⟩
  have used : ∀ r, Linked c.data u.qubit r → r ∈ c.touched := by
    intro r linked
    rcases eq_or_cluster_of_linked linked with same | ⟨v, w, -, second, -⟩
    · rw [← same]
      exact u.touched
    · rw [← second]
      exact w.touched
  calc
    (u.cluster []).width = Nat.card {r // Linked c.data u.qubit r} := width_uncut u
    _ ≤ Nat.card {r // r ∈ c.touched} := Nat.card_mono (List.finite_toSet c.touched) used
    _ = c.touched.toFinset.card := Nat.subtype_card _ fun r => List.mem_toFinset
    _ ≤ c.touched.length := List.toFinset_card_le c.touched

theorem cutsFit_of_touched (enough : budget.atLeast c.touched.length = true) :
    c.cutsFit [] budget = true := by
  rw [cutsFit_iff]
  intro f
  exact Number.atLeast_of_le (Int.ofNat_le.mpr (width_le_touched f)) enough

/-- The shortcut for circuits on few qubits changes neither the cuts nor the events. -/
theorem findCuts_eq (positive : budget.atLeast 1 = true) :
    c.findCuts budget =
      if c.cutsFit [] budget then pure [] else c.placeCuts budget [] c.proposals := by
  rw [findCuts, Number.below_of_atLeast positive, if_neg Bool.false_ne_true]
  split
  · next enough => rw [if_pos (cutsFit_of_touched enough)]
  · rfl

end Shortcut

section Empty

theorem barriers_fit : (c.filter Instruction.isBarrier).cutsFit [] budget = true := by
  rw [cutsFit_iff]
  intro f
  rcases f.exists_use with ⟨u, rfl⟩
  rcases u.acts with ⟨i, present, acting, -⟩
  have barrier := (List.mem_filter.mp (List.mem_of_getElem? present)).2
  rw [acting] at barrier
  cases barrier

theorem cutsFit_of_no_proposals (positive : budget.atLeast 1 = true) (none : c.proposals = []) :
    c.cutsFit [] budget = true := by
  have uncrossed : c.crossings = [] := by
    rw [← List.length_eq_zero_iff, ← c.proposals_length, none, List.length_nil]
  apply cutsFit_of_transfer _ positive (barriers_fit (c := c))
  intro i present
  cases acting : i.isBarrier with
  | true => exact Or.inl (List.mem_filter.mpr ⟨present, acting⟩)
  | false =>
      refine Or.inr (Nat.not_lt.mp fun several => ?_)
      rcases List.getElem?_of_mem present with ⟨position, found⟩
      have crossing : (i, position) ∈ c.crossings := by
        rw [crossings, List.mem_filter, List.mem_zipIdx_iff_getElem?]
        refine ⟨found, ?_⟩
        simp only [crosses, acting, Bool.not_false, Bool.true_and, decide_eq_true_eq]
        exact several
      rw [uncrossed] at crossing
      cases crossing

end Empty

/-- The proposals come just after the instructions on several qubits, on the second of their qubits, in
the order of the circuit. The planner returns the shortest start of them that fits, and all of them
if none does. Counting the qubits in use first makes no difference, and nothing is cut exactly if the
circuit fits as it is. -/
theorem findCuts_shortest (c : Circuit) (budget : Number) (positive : budget.atLeast 1 = true) :
    List.Forall₂ SeversAfter c.proposals c.crossings ∧
    c.findCuts budget =
      (if c.cutsFit [] budget then pure [] else c.placeCuts budget [] c.proposals) ∧
    ∃ cuts, (c.findCuts budget).outcome = .ok cuts ∧ c.ShortestFit budget c.proposals cuts ∧
      (cuts = [] ↔ c.cutsFit [] budget = true) := by
  refine ⟨proposalsFrom_seversAfter 0 c.data, findCuts_eq positive, ?_⟩
  rw [findCuts_eq positive]
  cases fit : c.cutsFit [] budget with
  | true =>
      refine ⟨[], rfl, ⟨List.nil_prefix, ?_, Or.inl fit⟩, by simp⟩
      intro part _ short
      exact absurd short (Nat.not_lt_zero _)
  | false =>
      have unfit : c.NoneFits budget [] := by
        intro part start
        rw [List.prefix_nil.mp start]
        exact fit
      rcases placeCuts_shortestFit unfit c.proposals with ⟨cuts, placed, shortest⟩
      refine ⟨cuts, placed, shortest, ?_⟩
      refine iff_of_false (fun empty => ?_) Bool.false_ne_true
      rw [List.nil_append, empty] at shortest
      rcases shortest.fits with reached | all
      · rw [fit] at reached
        cases reached
      · rw [cutsFit_of_no_proposals positive all.symm] at fit
        cases fit

/-- The second proposal undoes what the first has achieved. -/
def relapse : Circuit :=
  (empty [⟨"q", 3⟩] []).withData
    [⟨"cx", [0, 1], [], []⟩, ⟨"cx", [1, 2], [], []⟩, ⟨"cx", [1, 2], [], []⟩] (by decide)

theorem relapse_shortest :
    relapse.proposals = [⟨1, 1⟩, ⟨2, 2⟩, ⟨3, 2⟩] ∧
    relapse.cutsFit relapse.proposals (.integer 2) = false ∧
    relapse.ShortestFit (.integer 2) relapse.proposals [⟨1, 1⟩] ∧
    relapse.ShortestFit (.integer 1) relapse.proposals relapse.proposals := by
  rcases findCuts_shortest relapse (.integer 2) (by decide) with ⟨-, -, cuts, found, shortest, -⟩
  rcases findCuts_shortest relapse (.integer 1) (by decide) with ⟨-, -, all, found', shortest', -⟩
  have planned : (relapse.findCuts (.integer 2)).outcome = .ok [⟨1, 1⟩] := rfl
  have exhausted : (relapse.findCuts (.integer 1)).outcome = .ok relapse.proposals := rfl
  rw [planned] at found
  rw [exhausted] at found'
  cases found
  cases found'
  exact ⟨rfl, by decide, shortest, shortest'⟩

end Circuit
end QuasiCut
