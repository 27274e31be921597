import Mathlib
import QuasiCut.Proofs.GateChoices

/-! The order of the gates that are cut. A way to cut is what it puts at each position, and its
weight. One more gate changes one position, and gates at different positions do so independently of
each other, so another order of the gates gives the same ways in another order. -/

namespace QuasiCut

namespace Circuit

/-- What a way to cut puts at each position, and its weight. -/
@[ext] structure Effect where
  placed : Nat → Option (List Instruction)
  weight : ℚ

def Effect.add (position : Nat) (e : Effect) (term : GateTerm ℚ) : Effect :=
  ⟨Function.update e.placed position (some term.operations), term.weight * e.weight⟩

def effect (way : Cutting) : Effect := ⟨fun position => way.1.lookup position, way.2⟩

def effects (cut : List (Nat × Instruction)) : List Effect := (configurations cut).map effect

section Effects

theorem Effect.add_add {first second : Nat} (apart : first ≠ second) (e : Effect)
    (one other : GateTerm ℚ) :
    Effect.add second (Effect.add first e one) other =
      Effect.add first (Effect.add second e other) one := by
  apply Effect.ext
  · exact Function.update_comm apart _ _ _
  · exact mul_left_comm _ _ _

theorem effect_withTerms (position : Nat) (terms : List (GateTerm ℚ)) (way : Cutting) :
    (withTerms position terms way).map effect = terms.map (Effect.add position (effect way)) := by
  rw [withTerms, List.map_map]
  apply List.map_congr_left
  intro term _
  apply Effect.ext
  · funext other
    by_cases here : other = position
    · subst here
      simp [effect, Effect.add]
    · have elsewhere : (other == position) = false := beq_eq_false_iff_ne.mpr here
      simp [effect, Effect.add, List.lookup_cons, here, elsewhere]
  · rfl

theorem effects_cons (position : Nat) (i : Instruction) (rest : List (Nat × Instruction)) :
    effects ((position, i) :: rest) =
      (effects rest).flatMap fun e => i.localTerms.map (Effect.add position e) := by
  rw [effects, configurations_cons, List.map_flatMap, effects, List.flatMap_map]
  apply List.flatMap_congr
  intro way _
  exact effect_withTerms position i.localTerms way

theorem flatMap_map_perm {α β γ : Type} (xs : List α) (ys : List β) (f : α → β → γ) :
    (xs.flatMap fun x => ys.map fun y => f x y).Perm
      (ys.flatMap fun y => xs.map fun x => f x y) := by
  apply Multiset.coe_eq_coe.mp
  have exchanged := Multiset.bind_map_comm (xs : Multiset α) (ys : Multiset β) (f := f)
  simpa only [Multiset.map_coe, Multiset.coe_bind] using exchanged

/-- Two gates at different positions are cut in either order. -/
theorem effects_swap {first second : Nat × Instruction} (apart : first.1 ≠ second.1)
    (rest : List (Nat × Instruction)) :
    (effects (first :: second :: rest)).Perm (effects (second :: first :: rest)) := by
  obtain ⟨p, i⟩ := first
  obtain ⟨q, j⟩ := second
  rw [effects_cons, effects_cons, effects_cons, effects_cons, List.flatMap_assoc,
    List.flatMap_assoc]
  apply List.Perm.flatMap_left
  intro e _
  rw [List.flatMap_map, List.flatMap_map]
  have exchanged := flatMap_map_perm (j.localTerms : List (GateTerm ℚ)) i.localTerms
    fun other one => Effect.add p (Effect.add q e other) one
  apply exchanged.trans
  apply List.Perm.of_eq
  apply List.flatMap_congr
  intro one _
  apply List.map_congr_left
  intro other _
  exact Effect.add_add apart.symm e other one

theorem effects_perm {cut other : List (Nat × Instruction)} (same : cut.Perm other)
    (distinct : (cut.map Prod.fst).Nodup) : (effects cut).Perm (effects other) := by
  induction same with
  | nil => exact List.Perm.refl _
  | @cons gate rest rest' _ ih =>
      obtain ⟨position, i⟩ := gate
      rw [effects_cons, effects_cons]
      apply List.Perm.flatMap_right
      exact ih (List.nodup_cons.mp distinct).2
  | swap first second rest =>
      apply effects_swap
      intro together
      apply (List.nodup_cons.mp distinct).1
      rw [together]
      exact List.mem_cons_self
  | trans left _ before after =>
      -- Gates at one position do not commute, so the list between must have distinct ones as well.
      have between := (left.map Prod.fst).nodup distinct
      exact (before distinct).trans (after between)

end Effects

section Experiments

variable {c : Circuit} {gates other : List Int}

def assemble (c : Circuit) (e : Effect) : Except Fault (Experiment ℚ) :=
  (c.rebuild (c.data.zipIdx.flatMap fun entry => (e.placed entry.2).getD [entry.1])).map
    fun circuit => ⟨circuit, e.weight⟩

theorem assemble_effects (c : Circuit) (gates : List Int) :
    (effects (c.cuttable gates)).map c.assemble = (c.experiments gates).map Except.ok := by
  rw [effects, configurations, experiments, List.map_map, List.map_map, List.map_map]
  apply List.map_congr_left
  intro entry _
  have expanded := c.expand_eq gates entry.1
  rw [expand, replaceFrom_eq_flatMap] at expanded
  exact congrArg (Except.map fun circuit => (⟨circuit, entry.2⟩ : Experiment ℚ)) expanded

theorem cuttable_perm (same : gates.Perm other) : (c.cuttable gates).Perm (c.cuttable other) :=
  (same.filterMap _).filter _

theorem checkGates_perm (same : gates.Perm other)
    (accepted : c.checkGates (gates.map .integer) = .ok ()) :
    c.checkGates (other.map .integer) = .ok () := by
  rw [checkGates_eq_ok_iff] at accepted ⊢
  constructor
  · exact same.nodup accepted.1
  · intro gate listed
    exact accepted.2 gate (same.mem_iff.mpr listed)

theorem experiments_perm (same : gates.Perm other)
    (accepted : c.checkGates (gates.map .integer) = .ok ()) :
    (c.experiments gates).Perm (c.experiments other) := by
  have reordered := effects_perm (cuttable_perm same) (cuttable_positions_nodup accepted)
  have assembled := reordered.map c.assemble
  rw [assemble_effects, assemble_effects] at assembled
  exact (List.map_perm_map_iff fun _ _ => Except.ok.inj).mp assembled

end Experiments

end Circuit

/-- The same experiments and records in another order, with the same parts and overhead. -/
structure GateCutting.Reorders (cutting other : GateCutting ℚ) : Prop where
  experiments : cutting.experiments.Perm other.experiments
  subcircuits : cutting.summary.subcircuits = other.summary.subcircuits
  cuts : cutting.summary.cuts.Perm other.summary.cuts
  overhead : cutting.summary.overhead = other.summary.overhead

namespace Circuit

/-- A list of gates that is accepted is accepted in every order. In another order it fails with the
same fault, or the same experiments are returned in another order, with the same summary but for
the order of the records. -/
theorem cutGates_reorder (c : Circuit) (gates other : List Int) (same : gates.Perm other)
    (accepted : c.checkGates (gates.map .integer) = .ok ()) :
    c.checkGates (other.map .integer) = .ok () ∧
    ((∃ cutting, (c.cutGates gates : Report (GateCutting ℚ)).outcome = .ok cutting) ↔
      (c.cuttable gates).length ≤ 646) ∧
    (∀ cutting, (c.cutGates gates).outcome = .ok cutting →
      ∃ reordered, (c.cutGates other).outcome = .ok reordered ∧ cutting.Reorders reordered) ∧
    ∀ fault, (c.cutGates gates : Report (GateCutting ℚ)).outcome = .error fault →
      (c.cutGates other : Report (GateCutting ℚ)).outcome = .error fault := by
  have accepted' := checkGates_perm same accepted
  have cut : (c.cuttable gates).Perm (c.cuttable other) := cuttable_perm same
  constructor
  · exact accepted'
  constructor
  · exact cutGates_isOk_iff accepted
  rw [cutGates_outcome accepted, cutGates_outcome accepted', ← cut.length_eq]
  cases priced : samplingOverhead 0 (c.cuttable gates).length with
  | error fault =>
      constructor
      · intro cutting returned
        cases returned
      · intro other refused
        exact refused
  | ok overhead =>
      constructor
      · intro cutting returned
        cases returned
        exact ⟨_, rfl, experiments_perm same accepted, rfl, cut.map _, rfl⟩
      · intro fault refused
        cases refused

theorem crossed_reorder :
    crossed.checkGates ([2, 1, 0].map .integer) = .ok () ∧
    ∃ cutting reordered, (crossed.cutGates [2, 1, 0]).outcome = .ok cutting ∧
      (crossed.cutGates [0, 2, 1]).outcome = .ok reordered ∧ cutting.Reorders reordered ∧
      cutting.experiments ≠ reordered.experiments := by
  have accepted : crossed.checkGates ([2, 1, 0].map .integer) = .ok () := by decide
  obtain ⟨-, returns, agrees, -⟩ :=
    cutGates_reorder crossed [2, 1, 0] [0, 2, 1] (by decide) accepted
  obtain ⟨cutting, returned⟩ := returns.mpr (by decide)
  obtain ⟨reordered, returned', agree⟩ := agrees cutting returned
  have different : (crossed.cutGates [2, 1, 0] : Report (GateCutting ℚ)).outcome.map
      GateCutting.experiments ≠ (crossed.cutGates [0, 2, 1] : Report (GateCutting ℚ)).outcome.map
        GateCutting.experiments := by decide +kernel
  rw [returned, returned'] at different
  constructor
  · exact accepted
  · have unequal : cutting.experiments ≠ reordered.experiments := by
      intro same
      exact different (congrArg Except.ok same)
    exact ⟨cutting, reordered, returned, returned', agree, unequal⟩

end Circuit
end QuasiCut
