import Mathlib
import QuasiCut.Proofs.GateChoices

/-! Cutting gates in stages. A gate that stands before all others keeps its position when they are
cut, so it can be cut afterwards in each of their experiments. -/

namespace QuasiCut

namespace Circuit

section Replacement

variable {replacements : List (Nat × List Instruction)}

theorem replaceFrom_nil (start : Nat) (data : List Instruction) :
    replaceFrom [] start data = data := by
  induction data generalizing start with
  | nil => rfl
  | cons i rest ih =>
      rw [replaceFrom, ih]
      rfl

theorem lookup_elsewhere {place position : Nat} (apart : position ≠ place)
    (operations : List Instruction) :
    List.lookup position ((place, operations) :: replacements) = replacements.lookup position := by
  rw [List.lookup_cons, beq_eq_false_iff_ne.mpr apart]

theorem replaceFrom_behind {place start : Nat} (behind : place < start)
    (operations data : List Instruction) :
    replaceFrom ((place, operations) :: replacements) start data =
      replaceFrom replacements start data := by
  induction data generalizing start with
  | nil => rfl
  | cons i rest ih =>
      rw [replaceFrom, replaceFrom, lookup_elsewhere behind.ne', ih (by omega)]

theorem replaceFrom_append {start : Nat} {before : List Instruction}
    (kept : ∀ position < start + before.length, replacements.lookup position = none)
    (after : List Instruction) :
    replaceFrom replacements start (before ++ after) =
      before ++ replaceFrom replacements (start + before.length) after := by
  induction before generalizing start with
  | nil => rfl
  | cons i rest ih =>
      rw [List.length_cons, ← Nat.add_assoc, Nat.add_right_comm] at kept ⊢
      rw [List.cons_append, replaceFrom, kept start (by omega), ih kept]
      rfl

theorem replaceFrom_at {before : List Instruction}
    (kept : ∀ position < before.length, replacements.lookup position = none) (i : Instruction)
    (after : List Instruction) :
    replaceFrom replacements 0 (before ++ i :: after) =
      before ++ ((replacements.lookup before.length).getD [i] ++
        replaceFrom replacements (before.length + 1) after) := by
  rw [← Nat.zero_add before.length] at kept
  rw [replaceFrom_append kept, Nat.zero_add, replaceFrom]

theorem exists_split {data : List Instruction} {place : Nat} {i : Instruction}
    (present : data[place]? = some i) :
    ∃ before after, data = before ++ i :: after ∧ before.length = place := by
  obtain ⟨inside, found⟩ := List.getElem?_eq_some_iff.mp present
  have split : data.take place ++ i :: data.drop (place + 1) = data := by
    rw [← found, List.getElem_cons_drop, List.take_append_drop]
  exact ⟨data.take place, data.drop (place + 1), split.symm, List.length_take_of_le inside.le⟩

section First

variable {data : List Instruction} {place : Nat} {i : Instruction}
  (present : data[place]? = some i)
  (later : ∀ position ≤ place, replacements.lookup position = none)

include present later

theorem replaceFrom_present : (replaceFrom replacements 0 data)[place]? = some i := by
  obtain ⟨before, after, rfl, rfl⟩ := exists_split present
  rw [replaceFrom_at fun position earlier => later position earlier.le, later before.length le_rfl]
  simp

theorem replaceFrom_cons (operations : List Instruction) :
    replaceFrom ((place, operations) :: replacements) 0 data =
      replaceFrom [(place, operations)] 0 (replaceFrom replacements 0 data) := by
  obtain ⟨before, after, rfl, rfl⟩ := exists_split present
  have kept : ∀ position < before.length, replacements.lookup position = none := by
    intro position earlier
    exact later position earlier.le
  have unchanged : ∀ position < before.length,
      List.lookup position ((before.length, operations) :: replacements) = none := by
    intro position earlier
    rw [lookup_elsewhere earlier.ne, kept position earlier]
  have alone : ∀ position < before.length,
      List.lookup position [(before.length, operations)] = none := by
    intro position earlier
    exact lookup_elsewhere earlier.ne operations
  -- What is put behind the gate may have another length, so nothing may be looked up there again.
  calc
    replaceFrom ((before.length, operations) :: replacements) 0 (before ++ i :: after) =
        before ++ (operations ++ replaceFrom replacements (before.length + 1) after) := by
      rw [replaceFrom_at unchanged, List.lookup_cons_self, Option.getD_some,
        replaceFrom_behind (Nat.lt_succ_self _)]
    _ = replaceFrom [(before.length, operations)] 0
          (before ++ i :: replaceFrom replacements (before.length + 1) after) := by
      rw [replaceFrom_at alone, List.lookup_cons_self, Option.getD_some,
        replaceFrom_behind (Nat.lt_succ_self _), replaceFrom_nil]
    _ = replaceFrom [(before.length, operations)] 0
          (replaceFrom replacements 0 (before ++ i :: after)) := by
      rw [replaceFrom_at kept, later before.length le_rfl]
      rfl

end First

end Replacement

section Stages

variable {c : Circuit} {gates : List Int} {gate : Int} {i : Instruction}

theorem withData_congr {data other : List Instruction}
    {fits : ∀ i ∈ data, i.FitsIn c.numQubits c.numClbits}
    {fits' : ∀ i ∈ other, i.FitsIn c.numQubits c.numClbits} (same : data = other) :
    c.withData data fits = c.withData other fits' := by
  subst same
  rfl

theorem experiments_congr {other : List Int} (same : c.cuttable gates = c.cuttable other) :
    c.experiments gates = c.experiments other := by
  simp only [experiments, gateBases, expansion, located, same]

theorem located_cons (present : c.data[gate.toNat]? = some i) (cut : i.isCuttable = true)
    (gates : List Int) :
    c.located (gate :: gates) = (gate.toNat, i.localTerms) :: c.located gates := by
  rw [located, cuttable_cons present, if_pos cut]
  rfl

theorem gateBases_cons (present : c.data[gate.toNat]? = some i) (cut : i.isCuttable = true)
    (gates : List Int) : c.gateBases (gate :: gates) = i.basis :: c.gateBases gates := by
  rw [gateBases, cuttable_cons present, if_pos cut]
  rfl

theorem lookup_earlier (low : 0 ≤ gate) (ahead : ∀ other ∈ gates, gate < other)
    (chosen : List Nat) :
    ∀ position ≤ gate.toNat, (chosenTerms (c.located gates) chosen).lookup position = none := by
  intro position earlier
  apply lookup_eq_none_of_fresh
  apply chosenTerms_positions
  rw [located, List.map_map]
  intro listed
  have named := (c.cuttable_positions_sublist gates).subset listed
  obtain ⟨other, member, same⟩ := List.mem_map.mp named
  have beyond := ahead other member
  omega

section Ahead

variable (present : c.data[gate.toNat]? = some i) (low : 0 ≤ gate)
  (ahead : ∀ other ∈ gates, gate < other)

include present low ahead

theorem expansion_present (chosen : List Nat) :
    (c.expansion gates chosen).data[gate.toNat]? = some i :=
  replaceFrom_present present (lookup_earlier low ahead chosen)

theorem expansion_cons (cut : i.isCuttable = true) (choice : Nat) (chosen : List Nat) :
    c.expansion (gate :: gates) (choice :: chosen) =
      (c.expansion gates chosen).expansion [gate] [choice] := by
  apply withData_congr
  rw [located_cons present cut, located_cons (expansion_present present low ahead chosen) cut]
  exact replaceFrom_cons present (lookup_earlier low ahead chosen) _

end Ahead

end Stages

end Circuit

def Experiment.refine (e : Experiment ℚ) (parts : List (Experiment ℚ)) : List (Experiment ℚ) :=
  parts.map fun part => ⟨part.circuit, e.weight * part.weight⟩

def Experiment.cutGate (e : Experiment ℚ) (gate : Int) : Except Fault (List (Experiment ℚ)) := do
  let cutting ← (e.circuit.cutGates [gate]).outcome
  return e.refine cutting.experiments

namespace Circuit

section Joint

variable {c : Circuit} {gates : List Int} {gate : Int} {i : Instruction}

theorem experiments_single (present : c.data[gate.toNat]? = some i) (cut : i.isCuttable = true) :
    c.experiments [gate] = (List.range (i.basis : Basis ℚ).numTerms).map fun choice =>
      ⟨c.expansion [gate] [choice], (i.basis : Basis ℚ).coeffs.getD choice 0⟩ := by
  have alone : c.gateBases [gate] = [i.basis] := gateBases_cons present cut []
  rw [experiments, alone]
  simp [Configuration.listing]

theorem experiments_kept (present : c.data[gate.toNat]? = some i) (kept : i.isCuttable = false) :
    c.experiments [gate] = [⟨c, 1⟩] := by
  have none : c.cuttable [gate] = c.cuttable [] := by
    rw [cuttable_cons present, kept]
    rfl
  have whole : c.expansion [] [] = c := withData_congr (replaceFrom_nil 0 c.data)
  rw [experiments_congr none]
  show [(⟨c.expansion [] [], 1⟩ : Experiment ℚ)] = [⟨c, 1⟩]
  rw [whole]

theorem mem_experiments_present (present : c.data[gate.toNat]? = some i) (low : 0 ≤ gate)
    (ahead : ∀ other ∈ gates, gate < other) {e : Experiment ℚ} (member : e ∈ c.experiments gates) :
    e.circuit.data[gate.toNat]? = some i := by
  obtain ⟨entry, -, rfl⟩ := List.mem_map.mp member
  exact expansion_present present low ahead entry.1

theorem experiments_cons (present : c.data[gate.toNat]? = some i) (low : 0 ≤ gate)
    (ahead : ∀ other ∈ gates, gate < other) :
    c.experiments (gate :: gates) =
      (c.experiments gates).flatMap fun e => e.refine (e.circuit.experiments [gate]) := by
  cases cut : i.isCuttable with
  | true =>
      -- The choice of the first gate varies fastest: each experiment of the others gives one block.
      rw [experiments, gateBases_cons present cut, experiments, Configuration.listing,
        List.map_flatMap, List.flatMap_map]
      apply List.flatMap_congr
      intro entry _
      rw [experiments_single (expansion_present present low ahead entry.1) cut, Experiment.refine,
        List.map_map, List.map_map]
      apply List.map_congr_left
      intro choice _
      simp only [Function.comp_apply, expansion_cons present low ahead cut, mul_comm]
  | false =>
      have same : c.cuttable (gate :: gates) = c.cuttable gates := by
        rw [cuttable_cons present, cut]
        rfl
      have alone : ∀ e ∈ c.experiments gates, e.refine (e.circuit.experiments [gate]) = [e] := by
        intro e member
        rw [experiments_kept (mem_experiments_present present low ahead member) cut]
        simp [Experiment.refine]
      rw [experiments_congr same, List.flatMap_congr alone, List.flatMap_singleton']

theorem cutGate_returns {e : Experiment ℚ} (present : e.circuit.data[gate.toNat]? = some i)
    (low : 0 ≤ gate) : e.cutGate gate = .ok (e.refine (e.circuit.experiments [gate])) := by
  have inside := (List.getElem?_eq_some_iff.mp present).1
  have accepted : e.circuit.checkGates ([gate].map .integer) = .ok () := by
    rw [checkGates_eq_ok_iff]
    simp only [List.nodup_singleton, List.mem_singleton, forall_eq, true_and]
    omega
  have few : (e.circuit.cuttable [gate]).length ≤ 646 := by
    have shorter := (e.circuit.cuttable_positions_sublist [gate]).length_le
    simp only [List.length_map, List.length_singleton] at shorter
    omega
  obtain ⟨cutting, returned⟩ := (cutGates_isOk_iff accepted).mpr few
  rw [Experiment.cutGate, returned, ← experiments_of_returned accepted returned]
  rfl

theorem checkGates_cons (accepted : c.checkGates (gates.map .integer) = .ok ())
    (inside : 0 ≤ gate ∧ gate < c.data.length) (ahead : ∀ other ∈ gates, gate < other) :
    c.checkGates ((gate :: gates).map .integer) = .ok () := by
  rw [checkGates_eq_ok_iff] at accepted ⊢
  constructor
  · apply List.nodup_cons.mpr
    constructor
    · intro listed
      exact lt_irrefl gate (ahead gate listed)
    · exact accepted.1
  · exact List.forall_mem_cons.mpr ⟨inside, accepted.2⟩

/-- A gate that stands before all others may be cut together with them or afterwards, in each of
their experiments in turn. The experiments are the same, in the same order, whether or not the gate
can be cut. -/
theorem cutGates_stages (c : Circuit) (gates : List Int) (gate : Int)
    (accepted : c.checkGates (gates.map .integer) = .ok ())
    (inside : 0 ≤ gate ∧ gate < c.data.length) (ahead : ∀ other ∈ gates, gate < other) :
    ((∃ joint, (c.cutGates (gate :: gates) : Report (GateCutting ℚ)).outcome = .ok joint) ↔
      (c.cuttable (gate :: gates)).length ≤ 646) ∧
    ∀ joint, (c.cutGates (gate :: gates)).outcome = .ok joint →
      ∃ later parts, (c.cutGates gates).outcome = .ok later ∧
        later.experiments.mapM (fun e => e.cutGate gate) = .ok parts ∧
        joint.experiments = parts.flatten := by
  have together := checkGates_cons accepted inside ahead
  obtain ⟨i, present⟩ := exists_gate inside
  constructor
  · exact cutGates_isOk_iff together
  · intro joint returned
    have few : (c.cuttable gates).length ≤ 646 := by
      have all := (cutGates_isOk_iff together).mp ⟨joint, returned⟩
      rw [cuttable_cons present] at all
      split at all
      · exact (Nat.le_succ _).trans all
      · exact all
    obtain ⟨later, cut⟩ := (cutGates_isOk_iff accepted).mpr few
    have listed := experiments_of_returned accepted cut
    have each : ∀ e ∈ later.experiments,
        e.cutGate gate = pure (e.refine (e.circuit.experiments [gate])) := by
      intro e member
      rw [listed] at member
      exact cutGate_returns (mem_experiments_present present inside.1 ahead member) inside.1
    refine ⟨later, _, cut, mapM_eq_pure each, ?_⟩
    rw [experiments_of_returned together returned, listed, experiments_cons present inside.1 ahead,
      List.flatMap_def]

theorem crossed_stages :
    (∃ joint later parts, (crossed.cutGates [0, 2]).outcome = .ok joint ∧
      (crossed.cutGates [2]).outcome = .ok later ∧
      later.experiments.mapM (fun e => e.cutGate 0) = .ok parts ∧
      joint.experiments = parts.flatten ∧ joint.experiments.length = 16) ∧
    ∃ joint later parts, (crossed.cutGates [1, 2]).outcome = .ok joint ∧
      (crossed.cutGates [2]).outcome = .ok later ∧
      later.experiments.mapM (fun e => e.cutGate 1) = .ok parts ∧
      joint.experiments = parts.flatten ∧ joint.experiments.length = 4 := by
  have cut := cutGates_stages crossed [2] 0 (by decide) (by decide) (by decide)
  have kept := cutGates_stages crossed [2] 1 (by decide) (by decide) (by decide)
  obtain ⟨joint, returned⟩ := cut.1.mpr (by decide)
  obtain ⟨later, parts, first, refined, same⟩ := cut.2 joint returned
  obtain ⟨joint', returned'⟩ := kept.1.mpr (by decide)
  obtain ⟨later', parts', first', refined', same'⟩ := kept.2 joint' returned'
  have counted : (crossed.cutGates [0, 2] : Report (GateCutting ℚ)).outcome.map
      (fun cutting => cutting.experiments.length) = .ok 16 := by decide +kernel
  have counted' : (crossed.cutGates [1, 2] : Report (GateCutting ℚ)).outcome.map
      (fun cutting => cutting.experiments.length) = .ok 4 := by decide +kernel
  rw [returned] at counted
  rw [returned'] at counted'
  constructor
  · exact ⟨joint, later, parts, returned, first, refined, same, Except.ok.inj counted⟩
  · exact ⟨joint', later', parts', returned', first', refined', same', Except.ok.inj counted'⟩

end Joint

end Circuit
end QuasiCut
