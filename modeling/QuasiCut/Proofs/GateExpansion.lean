import Mathlib
import QuasiCut.GateCut
import QuasiCut.Proofs.Enumeration

/-! What cutting gates returns: which requests are accepted, the terms that replace a gate, and one
experiment for each configuration in the order of the listing. -/

namespace QuasiCut

namespace Basis

variable {α : Type}

def placed (b : Basis α) (qubits : List Int) : List (GateTerm α) :=
  (b.terms.zip b.coeffs).map fun (term, coeff) =>
    ⟨(qubits.zip term).flatMap fun (qubit, side) =>
      side.map fun name => Instruction.single name qubit, coeff⟩

theorem locate_eq_placed {b : Basis α} {qubits : List Int} (balanced : b.Balanced)
    (sides : ∀ term ∈ b.terms, term.length = qubits.length) :
    b.locate qubits = .ok (b.placed qubits) := by
  have each : ∀ entry ∈ b.terms.zip b.coeffs,
      (do
        let operations ← locateTerm entry.1 qubits
        return (⟨operations, entry.2⟩ : GateTerm α) : Except Fault (GateTerm α)) =
      pure ⟨(qubits.zip entry.1).flatMap fun (qubit, side) =>
        side.map fun name => Instruction.single name qubit, entry.2⟩ := by
    intro entry member
    have length := sides entry.1 (List.of_mem_zip member).1
    simp only [locateTerm, Lockstep.zip, length, Configuration.check_same_length, bind,
      Except.bind, pure, Except.pure]
  rw [Balanced] at balanced
  simp only [locate, balanced, Configuration.check_same_length]
  rw [mapM_eq_pure each]
  rfl

theorem mem_placed_fits {b : Basis α} {qubits : List Int} {size clbits : Nat}
    (inside : ∀ qubit ∈ qubits, 0 ≤ qubit ∧ qubit < size) :
    ∀ term ∈ b.placed qubits, ∀ i ∈ term.operations, i.FitsIn size clbits := by
  intro term member i acts
  obtain ⟨entry, -, rfl⟩ := List.mem_map.mp member
  obtain ⟨side, paired, named⟩ := List.mem_flatMap.mp acts
  obtain ⟨name, -, rfl⟩ := List.mem_map.mp named
  exact Instruction.single_fitsIn name (inside side.1 (List.of_mem_zip paired).1) clbits

end Basis

namespace Instruction

section

variable {α : Type} [Coefficient α]

def basis (i : Instruction) : Basis α :=
  if i.name = "cx" then .cx else if i.name = "cz" then .cz else .swap

def localTerms (i : Instruction) : List (GateTerm α) := (basis i).placed i.qubits

theorem basis_balanced (i : Instruction) : (i.basis : Basis α).Balanced := by
  unfold basis
  split
  · rfl
  · split <;> rfl

theorem basis_sides (i : Instruction) : ∀ term ∈ (i.basis : Basis α).terms, term.length = 2 := by
  unfold basis
  split
  · simp [Basis.cx, Basis.ofTable]
  · split <;> simp [Basis.cz, Basis.swap, Basis.ofTable]

theorem isCuttable_iff {i : Instruction} :
    i.isCuttable = true ↔ (i.name = "cx" ∨ i.name = "cz" ∨ i.name = "swap") ∧ i.qubits.length = 2 := by
  simp [isCuttable]

theorem standard_eq_basis {i : Instruction} (cuttable : i.isCuttable = true) :
    Basis.standard i.name = .ok (i.basis : Basis α) := by
  obtain ⟨name | name | name, -⟩ := isCuttable_iff.mp cuttable <;>
    simp [Basis.standard, basis, name]

theorem locate_basis {i : Instruction} (cuttable : i.isCuttable = true) :
    (i.basis : Basis α).locate i.qubits = .ok i.localTerms := by
  refine Basis.locate_eq_placed i.basis_balanced fun term member => ?_
  rw [i.basis_sides term member, (isCuttable_iff.mp cuttable).2]

theorem gateTerms_outcome [One α] {i : Instruction} (cuttable : i.isCuttable = true) :
    (i.gateTerms : Report (List (GateTerm α))).outcome = .ok i.localTerms := by
  simp only [gateTerms, if_pos cuttable, Report.ofExcept, cutTerms, standard_eq_basis cuttable]
  exact locate_basis cuttable

end

end Instruction

namespace Circuit

theorem checkGates_eq_ok_iff (c : Circuit) (gates : List Int) :
    c.checkGates (gates.map .integer) = .ok () ↔
      gates.Nodup ∧ ∀ gate ∈ gates, 0 ≤ gate ∧ gate < c.data.length := by
  rw [checkGates, Number.distinct_integers]
  by_cases distinct : gates.Nodup
  · simp only [distinct, decide_true, not_true_eq_false, if_false, true_and]
    cases found : (gates.map Number.integer).find? fun gate =>
        !(gate.atLeast 0 && gate.below c.data.length) with
    | none =>
        have inside := List.find?_eq_none.mp found
        simpa using inside
    | some number =>
        have outside := List.find?_some found
        obtain ⟨gate, member, rfl⟩ := List.mem_map.mp (List.mem_of_find?_eq_some found)
        have refused : ¬∀ gate ∈ gates, 0 ≤ gate ∧ gate < c.data.length := by
          intro inside
          have bounds := inside gate member
          simp [bounds.1, bounds.2] at outside
        simp [refused]
  · simp [distinct]

theorem checkGates_fault_kind {c : Circuit} {gates : List Number} {fault : Fault}
    (refused : c.checkGates gates = .error fault) : fault.kind = .value := by
  unfold checkGates at refused
  split at refused
  · cases refused
    rfl
  · split at refused
    · cases refused
      rfl
    · cases refused

section Cuttable

variable {c : Circuit} {gates : List Int}

theorem mem_cuttable {position : Nat} {i : Instruction} :
    (position, i) ∈ c.cuttable gates ↔
      (∃ gate ∈ gates, gate.toNat = position) ∧ c.data[position]? = some i ∧
        i.isCuttable = true := by
  simp only [cuttable, List.mem_filter, List.mem_filterMap, Option.map_eq_some_iff, Prod.mk.injEq]
  constructor
  · rintro ⟨⟨gate, member, j, found, rfl, rfl⟩, cut⟩
    exact ⟨⟨gate, member, rfl⟩, found, cut⟩
  · rintro ⟨⟨gate, member, rfl⟩, found, cut⟩
    exact ⟨⟨gate, member, i, found, rfl, rfl⟩, cut⟩

theorem lookup_cuttable {position : Nat} {i : Instruction} :
    (c.cuttable gates).lookup position = some i ↔ (position, i) ∈ c.cuttable gates := by
  constructor
  · intro found
    obtain ⟨before, after, split, -⟩ := List.lookup_eq_some_iff.mp found
    simp [split]
  · intro member
    cases found : (c.cuttable gates).lookup position with
    | none => simpa using List.lookup_eq_none_iff.mp found (position, i) member
    | some j =>
        obtain ⟨before, after, split, -⟩ := List.lookup_eq_some_iff.mp found
        have other : (position, j) ∈ c.cuttable gates := by simp [split]
        have same := (mem_cuttable.mp member).2.1
        rwa [(mem_cuttable.mp other).2.1] at same

theorem cuttable_positions_sublist (c : Circuit) (gates : List Int) :
    ((c.cuttable gates).map Prod.fst).Sublist (gates.map Int.toNat) := by
  refine (List.filter_sublist.map Prod.fst).trans ?_
  induction gates with
  | nil => simp
  | cons gate rest ih =>
      cases found : c.data[gate.toNat]? with
      | none => simpa [found] using ih.cons gate.toNat
      | some i => simpa [found] using ih

theorem cuttable_positions_nodup (accepted : c.checkGates (gates.map .integer) = .ok ()) :
    ((c.cuttable gates).map Prod.fst).Nodup := by
  obtain ⟨distinct, inside⟩ := (c.checkGates_eq_ok_iff gates).mp accepted
  have places : (gates.map Int.toNat).Nodup := by
    refine List.Nodup.map_on (fun a first b second same => ?_) distinct
    have low := (inside a first).1
    have high := (inside b second).1
    omega
  exact places.sublist (c.cuttable_positions_sublist gates)

end Cuttable

section Terms

variable {α : Type} [Coefficient α] (c : Circuit) (gates : List Int)

theorem mapM_standard :
    (c.cuttable gates).mapM (fun (_, i) =>
      (liftM (Basis.standard i.name : Except Fault (Basis α)) : Report (Basis α))) =
        pure ((c.cuttable gates).map fun (_, i) => i.basis) := by
  refine mapM_eq_pure fun entry member => ?_
  simp [Instruction.standard_eq_basis (mem_cuttable.mp member).2.2]

theorem mapM_locate :
    ((c.cuttable gates).zip ((c.cuttable gates).map fun (_, i) => (i.basis : Basis α))).mapM
      (fun ((position, i), basis) => do
        let terms ← (liftM (basis.locate i.qubits) : Report (List (GateTerm α)))
        return (position, terms)) =
      pure ((c.cuttable gates).map fun (position, i) => (position, i.localTerms)) := by
  have paired : (c.cuttable gates).zip ((c.cuttable gates).map fun (_, i) => (i.basis : Basis α)) =
      (c.cuttable gates).map fun entry => (entry, entry.2.basis) := by
    rw [List.zip, List.zipWith_map_right, List.zipWith_self]
  rw [paired, List.mapM_map]
  refine mapM_eq_pure fun entry member => ?_
  simp [Instruction.locate_basis (mem_cuttable.mp member).2.2]

end Terms

theorem mem_replaceFrom {replacements : List (Nat × List Instruction)} {data : List Instruction}
    {position : Nat} {i : Instruction} (member : i ∈ replaceFrom replacements position data) :
    i ∈ data ∨ ∃ entry ∈ replacements, i ∈ entry.2 := by
  induction data generalizing position with
  | nil => cases member
  | cons first rest ih =>
      rw [replaceFrom, List.mem_append] at member
      rcases member with here | later
      · cases found : replacements.lookup position with
        | none =>
            rw [found] at here
            exact Or.inl (List.mem_cons.mpr (Or.inl (List.mem_singleton.mp here)))
        | some operations =>
            rw [found] at here
            obtain ⟨before, after, rfl, -⟩ := List.lookup_eq_some_iff.mp found
            exact Or.inr ⟨(position, operations), by simp, here⟩
      · rcases ih later with kept | replaced
        · exact Or.inl (List.mem_cons_of_mem first kept)
        · exact Or.inr replaced

theorem mem_chosenTerms {α : Type} {located : List (Nat × List (GateTerm α))} {chosen : List Nat}
    {entry : Nat × List Instruction} {i : Instruction}
    (member : entry ∈ chosenTerms located chosen) (acts : i ∈ entry.2) :
    ∃ place ∈ located, ∃ term ∈ place.2, i ∈ term.operations := by
  obtain ⟨⟨place, choice⟩, paired, rfl⟩ := List.mem_map.mp member
  cases found : place.2[choice]? with
  | none => simp [found] at acts
  | some term =>
      simp only [found, Option.map_some, Option.getD_some] at acts
      exact ⟨place, (List.of_mem_zip paired).1, term, List.mem_of_getElem? found, acts⟩

def located (c : Circuit) (gates : List Int) : List (Nat × List (GateTerm ℚ)) :=
  (c.cuttable gates).map fun (position, i) => (position, i.localTerms)

theorem expansion_fits (c : Circuit) (gates : List Int) (chosen : List Nat) :
    ∀ i ∈ replaceFrom (chosenTerms (c.located gates) chosen) 0 c.data,
      i.FitsIn c.numQubits c.numClbits := by
  intro i member
  rcases mem_replaceFrom member with kept | ⟨entry, replaced, acts⟩
  · exact c.fits i kept
  · obtain ⟨place, listed, term, terms, acts⟩ := mem_chosenTerms replaced acts
    obtain ⟨⟨position, gate⟩, cut, rfl⟩ := List.mem_map.mp listed
    have present : gate ∈ c.data := List.mem_of_getElem? (mem_cuttable.mp cut).2.1
    exact Basis.mem_placed_fits (c.fits gate present).1.2 term terms i acts

def expansion (c : Circuit) (gates : List Int) (chosen : List Nat) : Circuit :=
  c.withData (replaceFrom (chosenTerms (c.located gates) chosen) 0 c.data)
    (c.expansion_fits gates chosen)

def gateBases (c : Circuit) (gates : List Int) : List (Basis ℚ) :=
  (c.cuttable gates).map fun (_, i) => i.basis

def experiments (c : Circuit) (gates : List Int) : List (Experiment ℚ) :=
  (Configuration.listing (c.gateBases gates)).map fun (chosen, weight) =>
    ⟨c.expansion gates chosen, weight⟩

def gateCutting (c : Circuit) (gates : List Int) (overhead : Binary64) : GateCutting ℚ where
  experiments := c.experiments gates
  summary := {
    subcircuits := [c]
    cuts := (c.cuttable gates).map fun (_, i) => ⟨0, i.qubits.headD 0, .gate⟩
    overhead }

theorem expand_eq (c : Circuit) (gates : List Int) (chosen : List Nat) :
    c.expand (c.located gates) chosen = .ok (c.expansion gates chosen) := by
  rw [expand, rebuild, appendAll_of_fitsIn c.emptyLike (c.expansion_fits gates chosen)]
  rfl

/-- An accepted request is refused later only when its overhead has no binary64 number. -/
theorem cutGates_outcome {c : Circuit} {gates : List Int}
    (accepted : c.checkGates (gates.map .integer) = .ok ()) :
    (c.cutGates gates : Report (GateCutting ℚ)).outcome =
      (samplingOverhead 0 (c.cuttable gates).length).map (c.gateCutting gates) := by
  have bases : (c.cuttable gates).mapM (fun (_, i) =>
      (liftM (Basis.standard i.name : Except Fault (Basis ℚ)) : Report (Basis ℚ))) =
        pure (c.gateBases gates) := c.mapM_standard gates
  have placed : ((c.cuttable gates).zip (c.gateBases gates)).mapM (fun ((position, i), basis) => do
      let terms ← (liftM (basis.locate i.qubits) : Report (List (GateTerm ℚ)))
      return (position, terms)) = pure (c.located gates) := c.mapM_locate gates
  have built : (Configuration.listing (c.gateBases gates)).mapM (fun (chosen, weight) => do
      let circuit ← (liftM (c.expand (c.located gates) chosen) : Report Circuit)
      return (⟨circuit, weight⟩ : Experiment ℚ)) = pure (c.experiments gates) := by
    refine mapM_eq_pure fun entry member => ?_
    simp [c.expand_eq gates]
  have balanced : ∀ b ∈ c.gateBases gates, b.Balanced := by
    intro b member
    obtain ⟨entry, -, rfl⟩ := List.mem_map.mp member
    exact entry.2.basis_balanced
  have listed := Configuration.enumerate_outcome balanced
  unfold cutGates
  rw [accepted, Report.liftM_ok, pure_bind]
  refine (Report.outcome_ite_emit _ _).trans ?_
  rw [bases, pure_bind, placed, pure_bind, Report.outcome_bind_of_ok listed, built, pure_bind,
    Report.outcome_liftM_bind]
  rfl

end Circuit
end QuasiCut
