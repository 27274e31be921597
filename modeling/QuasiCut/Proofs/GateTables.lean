import Mathlib
import QuasiCut.Proofs.GateMeaning
import QuasiCut.Proofs.Operator

/-! What the tables of the gates that can be cut sum to, as operators. The terms of `cz` and `swap`
sum to half of the gate, and those of `cx` to an operator that has no inverse. So cutting gives back
the operator of a circuit exactly when no gate is cut. -/

namespace QuasiCut

open MulOpposite

namespace Operator

variable {n : Nat}

theorem cx_table :
    (1 / 2 : ℚ) • (1 : Operator 2) + (1 / 2 : ℚ) • (place ![1] z * place ![0] z) +
      (1 / 2 : ℚ) • (place ![1] x * place ![0] x) +
        (-1 / 2 : ℚ) • (place ![1] y * place ![0] y) = pairing := by
  ext r s
  simp only [Matrix.add_apply, Matrix.smul_apply, one_apply_two, place_both, x, y, z, pairing,
    Matrix.cons_val_zero]
  cases r 0 <;> cases r 1 <;> cases s 0 <;> cases s 1 <;> simp [Rat.smul_def] <;> norm_num

theorem cz_table :
    (1 / 4 : ℚ) • (1 : Operator 2) + (1 / 4 : ℚ) • place ![0] z + (1 / 4 : ℚ) • place ![1] z +
      (-1 / 4 : ℚ) • (place ![1] z * place ![0] z) = (1 / 2 : ℚ) • cz := by
  ext r s
  simp only [Matrix.add_apply, Matrix.smul_apply, one_apply_two, place_both, place_first,
    place_second, z, cz, Matrix.cons_val_zero]
  cases r 0 <;> cases r 1 <;> cases s 0 <;> cases s 1 <;> simp [Rat.smul_def] <;> norm_num

theorem swap_table :
    (1 / 4 : ℚ) • (1 : Operator 2) + (1 / 4 : ℚ) • (place ![1] x * place ![0] x) +
      (1 / 4 : ℚ) • (place ![1] y * place ![0] y) +
        (1 / 4 : ℚ) • (place ![1] z * place ![0] z) = (1 / 2 : ℚ) • swap := by
  ext r s
  simp only [Matrix.add_apply, Matrix.smul_apply, one_apply_two, place_both, x, y, z, swap,
    Matrix.cons_val_zero]
  cases r 0 <;> cases r 1 <;> cases s 0 <;> cases s 1 <;> simp [Rat.smul_def] <;> norm_num

theorem pairing_mul_onlySecond : pairing * onlySecond = 0 := by
  ext r s
  rw [Matrix.mul_apply, sum_two]
  simp [pairing, onlySecond]

section Pair

variable {a b : Fin n} (distinct : a ≠ b)

include distinct

theorem place_on_first (M : Operator 1) : place ![a] M = place ![a, b] (place ![0] M) := by
  rw [place_place (injective_pair_iff_ne.mpr distinct)]
  congr 1
  funext j
  fin_cases j
  rfl

theorem place_on_second (M : Operator 1) : place ![b] M = place ![a, b] (place ![1] M) := by
  rw [place_place (injective_pair_iff_ne.mpr distinct)]
  congr 1
  funext j
  fin_cases j
  rfl

theorem place_on_both (M N : Operator 1) :
    place ![b] N * place ![a] M = place ![a, b] (place ![1] N * place ![0] M) := by
  rw [place_on_first distinct, place_on_second distinct, place_mul (injective_pair_iff_ne.mpr distinct)]

theorem pairing_not_isUnit : ¬IsUnit (place ![a, b] pairing) := by
  intro unit
  have product : place ![a, b] pairing * place ![a, b] onlySecond = 0 := by
    rw [place_mul (injective_pair_iff_ne.mpr distinct), pairing_mul_onlySecond, place_zero]
  have vanishes : place ![a, b] onlySecond = 0 := unit.mul_right_eq_zero.mp product
  have entry := congrFun (congrFun vanishes fun q => decide (q = b)) fun q => decide (q = b)
  have agree : Agree ![a, b] (fun q => decide (q = b)) fun q => decide (q = b) := fun _ _ => rfl
  simp [place, agree, onlySecond, distinct] at entry

end Pair

def single? (name : String) : Option (Operator 1) :=
  if name = "x" then some x else if name = "y" then some y else if name = "z" then some z else none

def pair? (name : String) : Option (Operator 2) :=
  if name = "cx" then some cx else if name = "cz" then some cz
  else if name = "swap" then some swap else none

def wire? (n : Nat) (qubit : Int) : Option (Fin n) :=
  if inside : 0 ≤ qubit ∧ qubit < n then some ⟨qubit.toNat, by omega⟩ else none

theorem wire?_natCast (a : Fin n) : wire? n (a : Nat) = some a := by
  have inside : (0 : Int) ≤ (a : Nat) ∧ ((a : Nat) : Int) < n := by
    have bound := a.isLt
    omega
  simp [wire?, inside]

end Operator

open Operator

namespace Instruction

/-- The operator of a standard gate on `n` qubits. Other instructions have none, which is written
as the zero operator. -/
noncomputable def operator (n : Nat) (i : Instruction) : Operator n :=
  match i.qubits.map (wire? n) with
  | [some a] => ((single? i.name).map (place ![a])).getD 0
  | [some a, some b] => ((pair? i.name).map (place ![a, b])).getD 0
  | _ => 0

def IsStandard (i : Instruction) : Prop :=
  (i.name ∈ ["x", "y", "z"] ∧ i.qubits.length = 1) ∨
    (i.name ∈ ["cx", "cz", "swap"] ∧ i.qubits.length = 2)

theorem exists_wire {n : Nat} {i : Instruction} (placed : Placed n i.qubits)
    (single : i.qubits.length = 1) : ∃ a : Fin n, i.qubits = [((a : Nat) : Int)] := by
  obtain ⟨q, listed⟩ := List.length_eq_one_iff.mp single
  have bounds := placed.2 q (by simp [listed])
  refine ⟨⟨q.toNat, by omega⟩, ?_⟩
  rw [listed, Int.toNat_of_nonneg bounds.1]

theorem exists_wires {n : Nat} {i : Instruction} (placed : Placed n i.qubits)
    (pair : i.qubits.length = 2) :
    ∃ a b : Fin n, a ≠ b ∧ i.qubits = [((a : Nat) : Int), ((b : Nat) : Int)] := by
  obtain ⟨p, q, listed⟩ := List.length_eq_two.mp pair
  have first := placed.2 p (by simp [listed])
  have second := placed.2 q (by simp [listed])
  have different : p ≠ q := by
    have distinct := placed.1
    simpa [listed] using distinct
  refine ⟨⟨p.toNat, by omega⟩, ⟨q.toNat, by omega⟩, ?_, ?_⟩
  · intro same
    have values := Fin.mk.inj_iff.mp same
    omega
  · rw [listed, Int.toNat_of_nonneg first.1, Int.toNat_of_nonneg second.1]

theorem operator_single {n : Nat} (name : String) (a : Fin n) :
    (single name (a : Nat)).operator n = ((single? name).map (place ![a])).getD 0 := by
  simp [operator, single, wire?_natCast]

theorem operator_pair {n : Nat} {i : Instruction} {a b : Fin n}
    (qubits : i.qubits = [((a : Nat) : Int), ((b : Nat) : Int)]) :
    i.operator n = ((pair? i.name).map (place ![a, b])).getD 0 := by
  simp [operator, qubits, wire?_natCast]

theorem operator_mul_self {n : Nat} {i : Instruction} (standard : i.IsStandard)
    (placed : Placed n i.qubits) : i.operator n * i.operator n = 1 := by
  rcases standard with ⟨name, length⟩ | ⟨name, length⟩
  · obtain ⟨a, qubits⟩ := exists_wire placed length
    have gate : ∃ M, single? i.name = some M ∧ M * M = 1 := by
      simp only [List.mem_cons, List.not_mem_nil, or_false] at name
      rcases name with name | name | name
      · exact ⟨x, by simp [single?, name], mul_self_of_single (by simp)⟩
      · exact ⟨y, by simp [single?, name], mul_self_of_single (by simp)⟩
      · exact ⟨z, by simp [single?, name], mul_self_of_single (by simp)⟩
    obtain ⟨M, found, square⟩ := gate
    have injective : Function.Injective ![a] := Function.injective_of_subsingleton _
    have value : i.operator n = place ![a] M := by
      simp [operator, qubits, wire?_natCast, found]
    rw [value, place_mul injective, square, place_one]
  · obtain ⟨a, b, distinct, qubits⟩ := exists_wires placed length
    have gate : ∃ M, pair? i.name = some M ∧ M * M = 1 := by
      simp only [List.mem_cons, List.not_mem_nil, or_false] at name
      rcases name with name | name | name
      · exact ⟨cx, by simp [pair?, name], mul_self_of_pair (by simp)⟩
      · exact ⟨cz, by simp [pair?, name], mul_self_of_pair (by simp)⟩
      · exact ⟨swap, by simp [pair?, name], mul_self_of_pair (by simp)⟩
    obtain ⟨M, found, square⟩ := gate
    have value : i.operator n = place ![a, b] M := by
      rw [operator_pair qubits, found]
      rfl
    rw [value, place_mul (injective_pair_iff_ne.mpr distinct), square, place_one]

end Instruction

/-- The operator of instructions in a row. The first one acts first, so it stands last. -/
noncomputable def operatorOf (n : Nat) (data : List Instruction) : Operator n :=
  (data.map (Instruction.operator n)).reverse.prod

noncomputable def reading (n : Nat) (i : Instruction) : (Operator n)ᵐᵒᵖ := op (i.operator n)

theorem meaning_reading (n : Nat) (data : List Instruction) :
    meaning (reading n) data = op (operatorOf n data) := by
  rw [meaning, operatorOf, op_list_prod, List.map_reverse, List.reverse_reverse, List.map_map]
  rfl

theorem operatorOf_isUnit {n : Nat} {data : List Instruction}
    (standard : ∀ i ∈ data, i.IsStandard) (placed : ∀ i ∈ data, Placed n i.qubits) :
    IsUnit (operatorOf n data) := by
  apply List.prod_isUnit
  intro M member
  obtain ⟨i, present, rfl⟩ := List.mem_map.mp (List.mem_reverse.mp member)
  have square := Instruction.operator_mul_self (standard i present) (placed i present)
  exact IsUnit.of_mul_eq_one _ square

section Terms

variable {n : Nat} {i : Instruction} {a b : Fin n}

theorem termSum_cx (distinct : a ≠ b) (name : i.name = "cx")
    (qubits : i.qubits = [((a : Nat) : Int), ((b : Nat) : Int)]) :
    termSum (reading n) i.localTerms = op (place ![a, b] pairing) := by
  have terms : (i.localTerms : List (GateTerm ℚ)) =
      [⟨[], 1 / 2⟩, ⟨[.single "z" (a : Nat), .single "z" (b : Nat)], 1 / 2⟩,
        ⟨[.single "x" (a : Nat), .single "x" (b : Nat)], 1 / 2⟩,
        ⟨[.single "y" (a : Nat), .single "y" (b : Nat)], -1 / 2⟩] := by
    simp [Instruction.localTerms, Instruction.basis, name, Basis.placed, Basis.cx, Basis.ofTable,
      Coefficient.ofRat, qubits]
  rw [terms, ← cx_table]
  simp [termSum, meaning, reading, Instruction.operator_single, single?, ← op_mul,
    place_on_both distinct, place_add, place_smul, place_one, add_assoc]

theorem termSum_cz (distinct : a ≠ b) (name : i.name = "cz")
    (qubits : i.qubits = [((a : Nat) : Int), ((b : Nat) : Int)]) :
    termSum (reading n) i.localTerms = (1 / 2 : ℚ) • reading n i := by
  have terms : (i.localTerms : List (GateTerm ℚ)) =
      [⟨[], 1 / 4⟩, ⟨[.single "z" (a : Nat)], 1 / 4⟩, ⟨[.single "z" (b : Nat)], 1 / 4⟩,
        ⟨[.single "z" (a : Nat), .single "z" (b : Nat)], -1 / 4⟩] := by
    simp [Instruction.localTerms, Instruction.basis, name, Basis.placed, Basis.cz, Basis.ofTable,
      Coefficient.ofRat, qubits]
  have gate : reading n i = op (place ![a, b] cz) := by
    simp [reading, Instruction.operator_pair qubits, pair?, name]
  rw [terms, gate, ← op_smul, ← place_smul, ← cz_table]
  simp [termSum, meaning, reading, Instruction.operator_single, single?, ← op_mul,
    place_on_both distinct, place_add, place_smul, place_one, add_assoc,
    ← place_on_first distinct, ← place_on_second distinct]

theorem termSum_swap (distinct : a ≠ b) (name : i.name = "swap")
    (qubits : i.qubits = [((a : Nat) : Int), ((b : Nat) : Int)]) :
    termSum (reading n) i.localTerms = (1 / 2 : ℚ) • reading n i := by
  have terms : (i.localTerms : List (GateTerm ℚ)) =
      [⟨[], 1 / 4⟩, ⟨[.single "x" (a : Nat), .single "x" (b : Nat)], 1 / 4⟩,
        ⟨[.single "y" (a : Nat), .single "y" (b : Nat)], 1 / 4⟩,
        ⟨[.single "z" (a : Nat), .single "z" (b : Nat)], 1 / 4⟩] := by
    simp [Instruction.localTerms, Instruction.basis, name, Basis.placed, Basis.swap, Basis.ofTable,
      Coefficient.ofRat, qubits]
  have gate : reading n i = op (place ![a, b] swap) := by
    simp [reading, Instruction.operator_pair qubits, pair?, name]
  rw [terms, gate, ← op_smul, ← place_smul, ← swap_table]
  simp [termSum, meaning, reading, Instruction.operator_single, single?, ← op_mul,
    place_on_both distinct, place_add, place_smul, place_one, add_assoc]

end Terms

theorem productFrom_cutValue_scaled {A : Type} [Ring A] [Algebra ℚ A] (interp : Instruction → A)
    (factor : ℚ) {data : List Instruction} {cut : List (Nat × Instruction)}
    (distinct : (cut.map Prod.fst).Nodup)
    (present : ∀ entry ∈ cut, data[entry.1]? = some entry.2)
    (scaled : ∀ entry ∈ cut, termSum interp entry.2.localTerms = factor • interp entry.2)
    {value : Nat → Option A} (free : ∀ entry ∈ cut, value entry.1 = none) :
    productFrom interp (cutValue interp cut value) 0 data =
      factor ^ cut.length • productFrom interp value 0 data := by
  induction cut generalizing value with
  | nil => simp [cutValue_nil]
  | cons gate cut ih =>
      obtain ⟨place, i⟩ := gate
      rw [List.map_cons, List.nodup_cons] at distinct
      have found : data[place]? = some i := present (place, i) List.mem_cons_self
      have multiple := scaled (place, i) List.mem_cons_self
      have empty : value place = none := free (place, i) List.mem_cons_self
      have inside : place < 0 + data.length := by
        have bound := (List.getElem?_eq_some_iff.mp found).1
        omega
      obtain ⟨left, right, factored⟩ := productFrom_update interp value (Nat.zero_le place) inside
      have itself := productFrom_update_self interp found empty
      have later : ∀ entry ∈ cut, Function.update value place (some (termSum interp i.localTerms))
          entry.1 = none := by
        intro entry member
        have other : entry.1 ≠ place := fun same =>
          distinct.1 (List.mem_map.mpr ⟨entry, member, same⟩)
        rw [Function.update_of_ne other]
        exact free entry (List.mem_cons_of_mem _ member)
      rw [cutValue_cons interp distinct.1,
        ih distinct.2 (fun entry member => present entry (List.mem_cons_of_mem _ member))
          (fun entry member => scaled entry (List.mem_cons_of_mem _ member)) later,
        factored, multiple, ← itself, factored, mul_smul_comm, smul_mul_assoc, smul_smul,
        List.length_cons, pow_succ]

noncomputable def reconstruction (n : Nat) (experiments : List (Experiment ℚ)) : Operator n :=
  (experiments.map fun e => e.weight • operatorOf n e.circuit.data).sum

theorem experimentSum_reading (n : Nat) (experiments : List (Experiment ℚ)) :
    experimentSum (reading n) experiments = op (reconstruction n experiments) := by
  induction experiments with
  | nil => simp [experimentSum, reconstruction]
  | cons e rest ih =>
      simp only [experimentSum, reconstruction, List.map_cons, List.sum_cons, op_add, op_smul,
        meaning_reading] at ih ⊢
      rw [ih]

namespace Circuit

variable {c : Circuit} {gates : List Int}

theorem cuttable_wires {entry : Nat × Instruction} (member : entry ∈ c.cuttable gates) :
    ∃ a b : Fin c.numQubits, a ≠ b ∧
      entry.2.qubits = [((a : Nat) : Int), ((b : Nat) : Int)] := by
  obtain ⟨-, present, cut⟩ := mem_cuttable.mp member
  exact Instruction.exists_wires (c.fits entry.2 (List.mem_of_getElem? present)).1
    (Instruction.isCuttable_iff.mp cut).2

theorem reconstruction_halved (accepted : c.checkGates (gates.map .integer) = .ok ())
    (others : ∀ entry ∈ c.cuttable gates, entry.2.name ≠ "cx") :
    reconstruction c.numQubits (c.experiments gates) =
      (1 / 2 : ℚ) ^ (c.cuttable gates).length • operatorOf c.numQubits c.data := by
  have halves : ∀ entry ∈ c.cuttable gates,
      termSum (reading c.numQubits) entry.2.localTerms =
        (1 / 2 : ℚ) • reading c.numQubits entry.2 := by
    intro entry member
    obtain ⟨a, b, distinct, qubits⟩ := cuttable_wires member
    obtain ⟨name | name | name, -⟩ := Instruction.isCuttable_iff.mp (mem_cuttable.mp member).2.2
    · exact absurd name (others entry member)
    · exact termSum_cz distinct name qubits
    · exact termSum_swap distinct name qubits
  apply op_injective
  rw [← experimentSum_reading, experimentSum_experiments _ accepted,
    productFrom_cutValue_scaled _ (1 / 2) (cuttable_positions_nodup accepted)
      (fun entry member => (mem_cuttable.mp member).2.1) halves (fun _ _ => rfl),
    productFrom_none, meaning_reading, op_smul]

theorem reconstruction_singular (accepted : c.checkGates (gates.map .integer) = .ok ())
    {entry : Nat × Instruction} (member : entry ∈ c.cuttable gates)
    (name : entry.2.name = "cx") :
    ¬IsUnit (reconstruction c.numQubits (c.experiments gates)) := by
  obtain ⟨a, b, distinct, qubits⟩ := cuttable_wires member
  have inside : entry.1 < 0 + c.data.length := by
    have bound := (List.getElem?_eq_some_iff.mp (mem_cuttable.mp member).2.1).1
    omega
  have value : cutValue (reading c.numQubits) (c.cuttable gates) (fun _ => none) entry.1 =
      some (op (place ![a, b] pairing)) := by
    simp [cutValue, lookup_cuttable.mpr member, termSum_cx distinct name qubits]
  obtain ⟨left, right, factored⟩ := productFrom_update (reading c.numQubits)
    (cutValue (reading c.numQubits) (c.cuttable gates) fun _ => none) (Nat.zero_le entry.1) inside
  have product := factored (op (place ![a, b] pairing))
  rw [← value, Function.update_eq_self, ← experimentSum_experiments _ accepted,
    experimentSum_reading] at product
  have parts : reconstruction c.numQubits (c.experiments gates) =
      unop right * (place ![a, b] pairing * unop left) := congrArg unop product
  intro unit
  rw [parts, Matrix.isUnit_iff_isUnit_det, Matrix.det_mul, Matrix.det_mul] at unit
  have factor := isUnit_of_mul_isUnit_left (isUnit_of_mul_isUnit_right unit)
  exact pairing_not_isUnit distinct ((Matrix.isUnit_iff_isUnit_det _).mpr factor)

theorem reconstruction_ne (standard : ∀ i ∈ c.data, i.IsStandard)
    (accepted : c.checkGates (gates.map .integer) = .ok ()) (cut : c.cuttable gates ≠ []) :
    reconstruction c.numQubits (c.experiments gates) ≠ operatorOf c.numQubits c.data := by
  intro same
  have unit : IsUnit (operatorOf c.numQubits c.data) :=
    operatorOf_isUnit standard fun i present => (c.fits i present).1
  by_cases others : ∀ entry ∈ c.cuttable gates, entry.2.name ≠ "cx"
  · rw [reconstruction_halved accepted others] at same
    have positive : 0 < (c.cuttable gates).length := List.length_pos_of_ne_nil cut
    have smaller : (1 / 2 : ℚ) ^ (c.cuttable gates).length ≠ 1 :=
      (pow_lt_one₀ (by norm_num) (by norm_num) positive.ne').ne
    have fixed : ((1 / 2 : ℚ) ^ (c.cuttable gates).length - 1) • operatorOf c.numQubits c.data =
        0 := by
      rw [sub_smul, same, one_smul, sub_self]
    rcases smul_eq_zero.mp fixed with zero | zero
    · exact smaller (sub_eq_zero.mp zero)
    · exact unit.ne_zero zero
  · simp only [not_forall, not_not] at others
    obtain ⟨entry, member, name⟩ := others
    have singular := reconstruction_singular accepted member name
    rw [same] at singular
    exact singular unit

/-- The experiments of an accepted request sum to the operator of the circuit exactly when no gate
is cut. Gates other than `cx` each halve it, and a `cx` leaves an operator without an inverse. -/
theorem cutGates_reconstructs_iff (c : Circuit) (gates : List Int)
    (standard : ∀ i ∈ c.data, i.IsStandard)
    (accepted : c.checkGates (gates.map .integer) = .ok ()) :
    ((∃ cutting, (c.cutGates gates : Report (GateCutting ℚ)).outcome = .ok cutting) ↔
      (c.cuttable gates).length ≤ 646) ∧
    ∀ cutting, (c.cutGates gates : Report (GateCutting ℚ)).outcome = .ok cutting →
      (reconstruction c.numQubits cutting.experiments = operatorOf c.numQubits c.data ↔
        c.cuttable gates = []) ∧
      ((∀ entry ∈ c.cuttable gates, entry.2.name ≠ "cx") →
        reconstruction c.numQubits cutting.experiments =
          (1 / 2 : ℚ) ^ (c.cuttable gates).length • operatorOf c.numQubits c.data) ∧
      ((∃ entry ∈ c.cuttable gates, entry.2.name = "cx") →
        ¬IsUnit (reconstruction c.numQubits cutting.experiments)) := by
  refine ⟨cutGates_isOk_iff accepted, fun cutting returned => ?_⟩
  rw [experiments_of_returned accepted returned]
  refine ⟨⟨fun same => ?_, fun uncut => ?_⟩, reconstruction_halved accepted, ?_⟩
  · by_contra cut
    exact reconstruction_ne standard accepted cut same
  · rw [reconstruction_halved accepted (by simp [uncut]), uncut]
    simp
  · rintro ⟨entry, member, name⟩
    exact reconstruction_singular accepted member name

def flippedPhase : Circuit :=
  (empty [⟨"q", 2⟩] []).withData [Instruction.single "x" 0, ⟨"cz", [0, 1], [], []⟩] (by decide)

theorem flippedPhase_isStandard : ∀ i ∈ flippedPhase.data, i.IsStandard := by
  simp [flippedPhase, withData, Instruction.IsStandard, Instruction.single]

theorem flippedPhase_reconstructed :
    (∀ i ∈ flippedPhase.data, i.IsStandard) ∧
    flippedPhase.checkGates ([0].map .integer) = .ok () ∧
    ∃ cutting, (flippedPhase.cutGates [0] : Report (GateCutting ℚ)).outcome = .ok cutting ∧
      reconstruction 2 cutting.experiments = operatorOf 2 flippedPhase.data := by
  have result := cutGates_reconstructs_iff flippedPhase [0] flippedPhase_isStandard (by decide)
  obtain ⟨cutting, returned⟩ := result.1.mpr (by decide)
  refine ⟨flippedPhase_isStandard, by decide, cutting, returned, ?_⟩
  exact (result.2 cutting returned).1.mpr (by decide)

/-- Cutting the `cz` gives half of the operator. -/
theorem flippedPhase_not_reconstructed :
    (∀ i ∈ flippedPhase.data, i.IsStandard) ∧
    flippedPhase.checkGates ([1].map .integer) = .ok () ∧
    ∃ cutting, (flippedPhase.cutGates [1] : Report (GateCutting ℚ)).outcome = .ok cutting ∧
      reconstruction 2 cutting.experiments ≠ operatorOf 2 flippedPhase.data := by
  have accepted : flippedPhase.checkGates ([1].map .integer) = .ok () := by decide
  obtain ⟨cutting, returned⟩ := (cutGates_isOk_iff accepted).mpr (by decide)
  refine ⟨flippedPhase_isStandard, accepted, cutting, returned, ?_⟩
  rw [experiments_of_returned accepted returned]
  exact reconstruction_ne flippedPhase_isStandard accepted (by decide)

end Circuit
end QuasiCut
