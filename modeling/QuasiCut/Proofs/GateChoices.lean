import Mathlib
import QuasiCut.Proofs.GateMeaning

/-! Cutting gates together as a choice of one term for each. A gate that cannot be cut has only one
term, itself, so the choices for all listed gates are those for the gates that are cut. -/

namespace QuasiCut

namespace Instruction

def options (i : Instruction) : List (GateTerm ℚ) :=
  if i.isCuttable then i.localTerms else [⟨[i], 1⟩]

theorem options_cut {i : Instruction} (cut : i.isCuttable = true) : i.options = i.localTerms :=
  if_pos cut

theorem options_kept {i : Instruction} (kept : i.isCuttable = false) : i.options = [⟨[i], 1⟩] := by
  rw [options, kept]
  rfl

theorem gateTerms_options (i : Instruction) : i.gateTerms.outcome = .ok i.options := by
  cases cut : i.isCuttable with
  | true => rw [gateTerms_outcome cut, options_cut cut]
  | false =>
      rw [gateTerms, options_kept cut, cut]
      rfl

end Instruction

namespace Circuit

def named (c : Circuit) (gates : List Int) : List (Nat × Instruction) :=
  gates.filterMap fun gate => (c.data[gate.toNat]?).map fun i => (gate.toNat, i)

def cutChoices (named : List (Nat × Instruction)) (chosen : List (GateTerm ℚ)) :
    List (Nat × List Instruction) :=
  ((named.zip chosen).filter fun entry => entry.1.2.isCuttable).map fun entry =>
    (entry.1.1, entry.2.operations)

def choiceWeight (chosen : List (GateTerm ℚ)) : ℚ := (chosen.map GateTerm.weight).prod

section CutChoices

variable {i : Instruction} {named : List (Nat × Instruction)} {position : Nat}

theorem cutChoices_cons_cut (cut : i.isCuttable = true) (term : GateTerm ℚ)
    (chosen : List (GateTerm ℚ)) :
    cutChoices ((position, i) :: named) (term :: chosen) =
      (position, term.operations) :: cutChoices named chosen := by
  simp [cutChoices, cut]

theorem cutChoices_cons_kept (kept : i.isCuttable = false) (term : GateTerm ℚ)
    (chosen : List (GateTerm ℚ)) :
    cutChoices ((position, i) :: named) (term :: chosen) = cutChoices named chosen := by
  simp [cutChoices, kept]

theorem cutChoices_lookup_of_fresh (fresh : position ∉ named.map Prod.fst)
    (chosen : List (GateTerm ℚ)) : (cutChoices named chosen).lookup position = none := by
  apply lookup_eq_none_of_fresh
  intro member
  rcases List.mem_map.mp member with ⟨entry, listed, rfl⟩
  rcases List.mem_map.mp listed with ⟨pair, kept, rfl⟩
  have paired := List.of_mem_zip (List.mem_filter.mp kept).1
  exact fresh (List.mem_map.mpr ⟨pair.1, paired.1, rfl⟩)

theorem cutChoices_lookup_elsewhere {other : Nat} (apart : position ≠ other) (term : GateTerm ℚ)
    (chosen : List (GateTerm ℚ)) :
    (cutChoices ((other, i) :: named) (term :: chosen)).lookup position =
      (cutChoices named chosen).lookup position := by
  cases cut : i.isCuttable with
  | true =>
      have missed : (position == other) = false := beq_eq_false_iff_ne.mpr apart
      rw [cutChoices_cons_cut cut, List.lookup_cons, missed]
  | false => rw [cutChoices_cons_kept cut]

theorem cutChoices_lookup_here {term : GateTerm ℚ} (option : term ∈ i.options)
    (fresh : position ∉ named.map Prod.fst) (chosen : List (GateTerm ℚ)) :
    ((cutChoices ((position, i) :: named) (term :: chosen)).lookup position).getD [i] =
      term.operations := by
  cases cut : i.isCuttable with
  | true => simp [cutChoices_cons_cut cut]
  | false =>
      rw [Instruction.options_kept cut, List.mem_singleton] at option
      rw [cutChoices_cons_kept cut, cutChoices_lookup_of_fresh fresh, option]
      rfl

end CutChoices

abbrev Cutting := List (Nat × List Instruction) × ℚ

def withTerms (position : Nat) (terms : List (GateTerm ℚ)) (others : Cutting) : List Cutting :=
  terms.map fun term => ((position, term.operations) :: others.1, term.weight * others.2)

def configurations (cut : List (Nat × Instruction)) : List Cutting :=
  (Configuration.listing (cut.map fun gate => gate.2.basis)).map fun entry =>
    (chosenTerms (cut.map fun gate => (gate.1, (gate.2.localTerms : List (GateTerm ℚ)))) entry.1,
      entry.2)

/-- The ways to cut that come from choosing one option of every listed instruction. -/
def selections (named : List (Nat × Instruction)) : List Cutting :=
  (named.map fun gate => gate.2.options).sections.map fun chosen =>
    (cutChoices named chosen, choiceWeight chosen)

section Selections

variable {i : Instruction} (position : Nat) (rest : List (Nat × Instruction))

theorem configurations_cons (i : Instruction) :
    configurations ((position, i) :: rest) =
      (configurations rest).flatMap (withTerms position i.localTerms) := by
  simp only [configurations, List.map_cons, Configuration.listing, List.map_flatMap,
    List.flatMap_map]
  apply List.flatMap_congr
  intro entry _
  conv_rhs => rw [withTerms, localTerms_eq, List.map_map]
  rw [List.map_map]
  rfl

theorem selections_cons_cut (cut : i.isCuttable = true) :
    selections ((position, i) :: rest) =
      (selections rest).flatMap (withTerms position i.localTerms) := by
  simp only [selections, List.map_cons, List.sections, List.map_flatMap, List.flatMap_map]
  apply List.flatMap_congr
  intro chosen _
  rw [withTerms, List.map_map, Instruction.options_cut cut]
  apply List.map_congr_left
  intro term _
  simp [cutChoices_cons_cut cut, choiceWeight]

theorem selections_cons_kept (kept : i.isCuttable = false) :
    selections ((position, i) :: rest) = selections rest := by
  simp only [selections, List.map_cons, List.sections, Instruction.options_kept kept, List.map_nil,
    List.map_flatMap]
  rw [← List.map_eq_flatMap]
  apply List.map_congr_left
  intro chosen _
  simp [cutChoices_cons_kept kept, choiceWeight]

theorem configurations_filter (named : List (Nat × Instruction)) :
    configurations (named.filter (·.2.isCuttable)) = selections named := by
  induction named with
  | nil => rfl
  | cons gate rest ih =>
      rcases gate with ⟨position, i⟩
      rw [List.filter_cons]
      cases cut : i.isCuttable with
      | true => rw [if_pos rfl, configurations_cons, selections_cons_cut position rest cut, ih]
      | false =>
          rw [selections_cons_kept position rest cut, ← ih]
          rfl

end Selections

def substituted (c : Circuit) (gates : List Int) (chosen : List (GateTerm ℚ)) : List Instruction :=
  c.data.zipIdx.flatMap fun entry =>
    (((gates.zip chosen).lookup (entry.2 : Int)).map GateTerm.operations).getD [entry.1]

section Substitution

variable {c : Circuit} {gates : List Int} {chosen : List (GateTerm ℚ)}

theorem replaceFrom_eq_flatMap (replacements : List (Nat × List Instruction)) (position : Nat)
    (data : List Instruction) :
    replaceFrom replacements position data =
      (data.zipIdx position).flatMap fun entry =>
        (replacements.lookup entry.2).getD [entry.1] := by
  induction data generalizing position with
  | nil => rfl
  | cons i rest ih => rw [replaceFrom, List.zipIdx_cons, List.flatMap_cons, ih]

theorem named_cons {gate : Int} {i : Instruction} (present : c.data[gate.toNat]? = some i)
    (rest : List Int) : c.named (gate :: rest) = (gate.toNat, i) :: c.named rest := by
  rw [named, List.filterMap_cons, present]
  rfl

theorem cuttable_cons {gate : Int} {i : Instruction} (present : c.data[gate.toNat]? = some i)
    (rest : List Int) :
    c.cuttable (gate :: rest) =
      if i.isCuttable then (gate.toNat, i) :: c.cuttable rest else c.cuttable rest := by
  show (c.named (gate :: rest)).filter (·.2.isCuttable) = _
  rw [named_cons present, List.filter_cons]
  rfl

theorem exists_gate {gate : Int} (bounds : 0 ≤ gate ∧ gate < c.data.length) :
    ∃ i, c.data[gate.toNat]? = some i := by
  have below : gate.toNat < c.data.length := by omega
  exact ⟨_, List.getElem?_eq_getElem below⟩

theorem named_positions (inside : ∀ gate ∈ gates, 0 ≤ gate ∧ gate < c.data.length) :
    (c.named gates).map Prod.fst = gates.map Int.toNat := by
  induction gates with
  | nil => rfl
  | cons gate rest ih =>
      rcases List.forall_mem_cons.mp inside with ⟨bounds, later⟩
      rcases exists_gate bounds with ⟨i, present⟩
      rw [named_cons present, List.map_cons, List.map_cons, ih later]

theorem named_fresh {position : Nat} (fresh : (position : Int) ∉ gates)
    (inside : ∀ gate ∈ gates, 0 ≤ gate ∧ gate < c.data.length) :
    position ∉ (c.named gates).map Prod.fst := by
  rw [named_positions inside]
  intro member
  rcases List.mem_map.mp member with ⟨gate, listed, rfl⟩
  rw [Int.toNat_of_nonneg (inside gate listed).1] at fresh
  exact fresh listed

/-- At each position the choices for the gates that are cut put the same operations as the choices
for all listed gates. -/
theorem lookup_cutChoices (distinct : gates.Nodup)
    (inside : ∀ gate ∈ gates, 0 ≤ gate ∧ gate < c.data.length)
    (optional : List.Forall₂ (· ∈ ·) chosen ((c.named gates).map fun gate => gate.2.options))
    {position : Nat} {i : Instruction} (present : c.data[position]? = some i) :
    ((cutChoices (c.named gates) chosen).lookup position).getD [i] =
      (((gates.zip chosen).lookup (position : Int)).map GateTerm.operations).getD [i] := by
  induction gates generalizing chosen with
  | nil => rfl
  | cons gate rest ih =>
      rcases List.nodup_cons.mp distinct with ⟨fresh, distinct⟩
      rcases List.forall_mem_cons.mp inside with ⟨bounds, later⟩
      rcases exists_gate bounds with ⟨j, found⟩
      rw [named_cons found, List.map_cons] at optional
      rw [named_cons found]
      cases optional with
      | @cons term _ terms _ option others =>
          rw [List.zip_cons_cons, List.lookup_cons]
          -- A gate that cannot be cut is found on the right only; no other gate has its position.
          by_cases here : (position : Int) = gate
          · subst here
            rw [Int.toNat_natCast, present] at found
            cases found
            rw [Int.toNat_natCast, cutChoices_lookup_here option (named_fresh fresh later)]
            simp
          · have apart : position ≠ gate.toNat := by omega
            have missed : ((position : Int) == gate) = false := beq_eq_false_iff_ne.mpr here
            rw [cutChoices_lookup_elsewhere apart, missed]
            exact ih distinct later others

theorem replaceFrom_cutChoices (distinct : gates.Nodup)
    (inside : ∀ gate ∈ gates, 0 ≤ gate ∧ gate < c.data.length)
    (optional : List.Forall₂ (· ∈ ·) chosen ((c.named gates).map fun gate => gate.2.options)) :
    replaceFrom (cutChoices (c.named gates) chosen) 0 c.data = c.substituted gates chosen := by
  rw [replaceFrom_eq_flatMap, substituted]
  apply List.flatMap_congr
  intro entry member
  exact lookup_cutChoices distinct inside optional (List.mem_zipIdx_iff_getElem?.mp member)

theorem experiments_eq_choices (distinct : gates.Nodup)
    (inside : ∀ gate ∈ gates, 0 ≤ gate ∧ gate < c.data.length) :
    (c.experiments gates).map (fun e => (e.circuit.data, e.weight)) =
      ((c.named gates).map fun gate => gate.2.options).sections.map fun chosen =>
        (c.substituted gates chosen, choiceWeight chosen) := by
  calc
    (c.experiments gates).map (fun e => (e.circuit.data, e.weight)) =
        (configurations (c.cuttable gates)).map fun entry =>
          (replaceFrom entry.1 0 c.data, entry.2) := by
      rw [experiments, configurations, List.map_map, List.map_map]
      rfl
    _ = (selections (c.named gates)).map fun entry =>
          (replaceFrom entry.1 0 c.data, entry.2) :=
      congrArg _ (configurations_filter (c.named gates))
    _ = ((c.named gates).map fun gate => gate.2.options).sections.map fun chosen =>
          (c.substituted gates chosen, choiceWeight chosen) := by
      rw [selections, List.map_map]
      apply List.map_congr_left
      intro chosen member
      have optional := List.mem_sections.mp member
      rw [Function.comp_apply, replaceFrom_cutChoices distinct inside optional]

theorem experiments_sameFrame : ∀ e ∈ c.experiments gates, e.circuit.SameFrame c := by
  intro e member
  rcases List.mem_map.mp member with ⟨entry, -, rfl⟩
  exact c.withData_sameFrame _ _

end Substitution

/-- The terms that replace the instruction of this number when it is cut by itself: itself with
weight one, if it cannot be cut. -/
def HasTerms (c : Circuit) (gate : Int) (terms : List (GateTerm ℚ)) : Prop :=
  ∃ i, c.data[gate.toNat]? = some i ∧ i.gateTerms.outcome = .ok terms ∧
    (i.isCuttable = false → terms = [⟨[i], 1⟩])

section Joint

variable {c : Circuit} {gates : List Int}

theorem named_hasTerms (inside : ∀ gate ∈ gates, 0 ≤ gate ∧ gate < c.data.length) :
    List.Forall₂ c.HasTerms gates ((c.named gates).map fun gate => gate.2.options) := by
  induction gates with
  | nil => exact List.Forall₂.nil
  | cons gate rest ih =>
      rcases List.forall_mem_cons.mp inside with ⟨bounds, later⟩
      rcases exists_gate bounds with ⟨i, present⟩
      rw [named_cons present, List.map_cons]
      exact List.Forall₂.cons ⟨i, present, i.gateTerms_options, Instruction.options_kept⟩ (ih later)

theorem cutGates_value_fault_iff :
    (∃ fault, (c.cutGates gates : Report (GateCutting ℚ)).outcome = .error fault ∧
      fault.kind = .value) ↔
        ¬(gates.Nodup ∧ ∀ gate ∈ gates, 0 ≤ gate ∧ gate < c.data.length) := by
  rw [← checkGates_eq_ok_iff]
  constructor
  · intro failed accepted
    rcases failed with ⟨fault, refused, value⟩
    rw [cutGates_outcome accepted] at refused
    cases priced : samplingOverhead 0 (c.cuttable gates).length with
    | ok overhead =>
        rw [priced] at refused
        cases refused
    | error other =>
        rw [priced] at refused
        cases refused
        rw [samplingOverhead_fault_kind priced] at value
        cases value
  · intro unaccepted
    cases checked : c.checkGates (gates.map .integer) with
    | ok accepted => exact absurd checked unaccepted
    | error fault =>
        refine ⟨fault, ?_, checkGates_fault_kind checked⟩
        rw [cutGates, checked]
        rfl

/-- Gates that are listed twice or not there are refused. Otherwise the experiments are the choices
of one term for each gate, the choice for the first gate varying fastest, with the chosen terms in
the places of the gates and the product of their weights. They are returned unless more than 646
gates are cut: the overhead of so many is beyond the binary64 numbers. -/
theorem cutGates_choices (c : Circuit) (gates : List Int) :
    ((∃ fault, (c.cutGates gates : Report (GateCutting ℚ)).outcome = .error fault ∧
      fault.kind = .value) ↔
        ¬gates.Nodup ∨ ∃ gate ∈ gates, ¬(0 ≤ gate ∧ gate < c.data.length)) ∧
    (gates.Nodup → (∀ gate ∈ gates, 0 ≤ gate ∧ gate < c.data.length) →
      ((∃ cutting, (c.cutGates gates : Report (GateCutting ℚ)).outcome = .ok cutting) ↔
        (c.cuttable gates).length ≤ 646) ∧
      ∃ terms, List.Forall₂ c.HasTerms gates terms ∧
        ∀ cutting, (c.cutGates gates).outcome = .ok cutting →
          cutting.experiments.map (fun e => (e.circuit.data, e.weight)) =
            terms.sections.map (fun chosen =>
              (c.substituted gates chosen, (chosen.map GateTerm.weight).prod)) ∧
          ∀ e ∈ cutting.experiments, e.circuit.SameFrame c) := by
  constructor
  · rw [cutGates_value_fault_iff, not_and_or]
    push Not
    rfl
  · intro distinct inside
    have accepted := (c.checkGates_eq_ok_iff gates).mpr ⟨distinct, inside⟩
    refine ⟨cutGates_isOk_iff accepted, _, named_hasTerms inside, ?_⟩
    intro cutting returned
    rw [experiments_of_returned accepted returned]
    exact ⟨experiments_eq_choices distinct inside, experiments_sameFrame⟩

theorem crossed_choices :
    (∃ cutting, (crossed.cutGates [2, 1, 0]).outcome = .ok cutting ∧
      ∃ terms, List.Forall₂ crossed.HasTerms [2, 1, 0] terms ∧
        cutting.experiments.map (fun e => (e.circuit.data, e.weight)) =
          terms.sections.map (fun chosen =>
            (crossed.substituted [2, 1, 0] chosen, (chosen.map GateTerm.weight).prod))) ∧
    crossed.substituted [2, 1, 0] [⟨[Instruction.single "z" 1], 1 / 4⟩,
      ⟨[Instruction.single "h" 0], 1⟩, ⟨[], 1 / 2⟩] =
        [Instruction.single "h" 0, Instruction.single "z" 1] ∧
    ∃ fault, (crossed.cutGates [2, 0, 2] : Report (GateCutting ℚ)).outcome = .error fault ∧
      fault.kind = .value := by
  rcases (cutGates_choices crossed [2, 1, 0]).2 (by decide) (by decide) with
    ⟨returns, terms, each, choices⟩
  rcases returns.mpr (by decide) with ⟨cutting, returned⟩
  have listed := (choices cutting returned).1
  have refused := (cutGates_choices crossed [2, 0, 2]).1.mpr (Or.inl (by decide))
  exact ⟨⟨cutting, returned, terms, each, listed⟩, by decide, refused⟩

end Joint

end Circuit
end QuasiCut
