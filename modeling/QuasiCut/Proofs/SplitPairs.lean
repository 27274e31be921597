import Mathlib
import QuasiCut.WireCut.Split
import QuasiCut.Proofs.AcceptedCuts
import QuasiCut.Proofs.Enumeration

/-! The pairs of circuits for all configurations of some wire cuts. The number of a configuration
has two bits for each cut, which choose its term, and every pair is split at the cut that is given
first. -/

namespace QuasiCut

namespace WireCut

def termOn (cut : WireCut) (term side : Nat) : List (LocalOp Int) :=
  ((Basis.wire : Basis ℚ).side term side).map fun name => ⟨name, cut.qubit⟩

/-- What a configuration puts on one side of the cuts, cut by cut: two bits of its number choose the
term. The first side prepares states, the second changes the basis of measurements. -/
def configured (side : Nat) (cuts : List WireCut) (index : Nat) : List (LocalOp Int) :=
  cuts.zipIdx.flatMap fun entry => entry.1.termOn ((index >>> (2 * entry.2)) &&& 3) side

section

variable {κ : Type}

section

variable (α : Type) [Coefficient α]

theorem count_bases (qubits : List κ) :
    Configuration.count (bases qubits : List (Basis α)) = 4 ^ qubits.length := by
  induction qubits with
  | nil => rfl
  | cons qubit rest ih =>
      calc
        Configuration.count (bases (qubit :: rest) : List (Basis α)) =
            4 * Configuration.count (bases rest : List (Basis α)) := rfl
        _ = 4 ^ (qubit :: rest).length := by rw [ih, List.length_cons, pow_succ']

theorem balanced_bases (qubits : List κ) : ∀ b ∈ (bases qubits : List (Basis α)), b.Balanced := by
  intro b member
  rcases List.mem_map.mp member with ⟨qubit, -, rfl⟩
  rfl

theorem lt_count_bases {cuts : List WireCut} {index : Nat} (inside : index < 4 ^ cuts.length) :
    index < Configuration.count (bases (cuts.map qubit) : List (Basis α)) := by
  rw [count_bases, List.length_map]
  exact inside

theorem operations_digits (side : Nat) (cuts : List WireCut) (index start : Nat) :
    operations side ((cuts.map qubit).zip ((bases (cuts.map qubit) : List (Basis α)).zip
      (Configuration.digits (bases (cuts.map qubit) : List (Basis α)) (index >>> (2 * start))))) =
      (cuts.zipIdx start).flatMap fun entry =>
        entry.1.termOn ((index >>> (2 * entry.2)) &&& 3) side := by
  induction cuts generalizing start with
  | nil => rfl
  | cons cut rest ih =>
      have later := ih (start + 1)
      rw [List.zipIdx_cons, List.flatMap_cons, ← later, ← Configuration.shiftRight_div_four,
        ← Configuration.mod_four]
      rfl

theorem operations_eq_configured (side : Nat) (cuts : List WireCut) (index : Nat) :
    operations side ((cuts.map qubit).zip ((bases (cuts.map qubit) : List (Basis α)).zip
      (Configuration.digits (bases (cuts.map qubit) : List (Basis α)) index))) =
      configured side cuts index :=
  operations_digits α side cuts index 0

end

theorem coeffs_wire {choice : Nat} (inside : choice < 4) :
    (Basis.wire : Basis ℚ).coeffs.getD choice 0 = 1 / 2 := by
  interval_cases choice <;> rfl

theorem exactWeight_bases {qubits : List κ} {chosen : List Nat}
    (admissible : Configuration.Admissible (bases qubits : List (Basis ℚ)) chosen) :
    Configuration.exactWeight (bases qubits) chosen = (1 / 2) ^ qubits.length := by
  induction qubits generalizing chosen with
  | nil => simp [bases, Configuration.exactWeight]
  | cons qubit rest ih =>
      cases chosen with
      | nil => exact admissible.elim
      | cons choice chosen =>
          have first := coeffs_wire admissible.1
          have later := ih admissible.2
          calc
            Configuration.exactWeight (bases (qubit :: rest)) (choice :: chosen) =
                (Basis.wire : Basis ℚ).coeffs.getD choice 0 *
                  Configuration.exactWeight (bases rest) chosen := rfl
            _ = (1 / 2) ^ (qubit :: rest).length := by
              rw [first, later, List.length_cons, pow_succ']

end

theorem insertion_of_weight {α : Type} [One α] [Mul α] [Coefficient α] {cuts : List WireCut}
    {index : Nat} (inside : index < 4 ^ cuts.length) {coeff : α}
    (weighed : Configuration.weight (bases (cuts.map qubit) : List (Basis α))
      ((Configuration.digits (bases (cuts.map qubit) : List (Basis α)) index).map Number.ofNat) =
        .ok coeff) :
    insertion cuts index = .ok ⟨configured 0 cuts index, configured 1 cuts index, coeff⟩ := by
  simp only [insertion, insertionOn, Configuration.choices_natCast (lt_count_bases α inside), bind,
    Except.bind, weighed, pure, Except.pure, operations_eq_configured]

theorem insertion_configured (α : Type) [One α] [Mul α] [Coefficient α] {cuts : List WireCut}
    {index : Nat} (inside : index < 4 ^ cuts.length) :
    ∃ coeff : α,
      insertion cuts index = .ok ⟨configured 0 cuts index, configured 1 cuts index, coeff⟩ := by
  obtain ⟨coeff, weighed⟩ := Configuration.weight_returns (balanced_bases α (cuts.map qubit))
    (Configuration.digits_admissible (lt_count_bases α inside))
  exact ⟨coeff, insertion_of_weight inside weighed⟩

theorem insertion_eq {cuts : List WireCut} {index : Nat} (inside : index < 4 ^ cuts.length) :
    (insertion cuts index : Except Fault (Insertion Int ℚ)) =
      .ok ⟨configured 0 cuts index, configured 1 cuts index, (1 / 2) ^ cuts.length⟩ := by
  have admissible := Configuration.digits_admissible (lt_count_bases ℚ inside)
  have weight := Configuration.weight_eq (balanced_bases ℚ (cuts.map qubit)) admissible
  rw [exactWeight_bases admissible, List.length_map] at weight
  exact insertion_of_weight inside weight

theorem mem_configured {side : Nat} {cuts : List WireCut} {index : Nat} {op : LocalOp Int}
    (member : op ∈ configured side cuts index) : op.qubit ∈ cuts.map qubit := by
  rcases List.mem_flatMap.mp member with ⟨entry, listed, placed⟩
  rcases List.mem_map.mp placed with ⟨name, -, rfl⟩
  exact List.mem_map_of_mem (List.fst_mem_of_mem_zipIdx listed)

end WireCut

namespace Circuit

variable {c : Circuit} {cuts : List WireCut}

section Pairs

def splitAt (c : Circuit) (cuts : List WireCut) : Nat :=
  ((cuts.head?.map WireCut.position).getD c.data.length).toNat

/-- The pair of a configuration: the instructions before the split and the preparations, then the
changes of basis and the instructions after the split. -/
structure Splits (c : Circuit) (cuts : List WireCut) (index : Nat) (pair : SplitPair ℚ) : Prop where
  before : pair.before.data = c.data.take (c.splitAt cuts) ++
    (WireCut.configured 0 cuts index).map LocalOp.instruction
  after : pair.after.data = (WireCut.configured 1 cuts index).map LocalOp.instruction ++
    c.data.drop (c.splitAt cuts)
  coeff : pair.coeff = (1 / 2) ^ cuts.length
  inserted : WireCut.insertion cuts index =
    .ok ⟨WireCut.configured 0 cuts index, WireCut.configured 1 cuts index, pair.coeff⟩
  beforeFrame : pair.before.SameFrame c
  afterFrame : pair.after.SameFrame c

theorem splitPosition_toNat (c : Circuit) (cuts : List WireCut) :
    (WireCut.splitPosition cuts c.data.length).toNat = c.splitAt cuts := by
  cases cuts <;> rfl

theorem configured_fits (accepted : ∀ cut ∈ cuts, c.Accepts cut) (side index : Nat) :
    ∀ i ∈ (WireCut.configured side cuts index).map LocalOp.instruction,
      i.FitsIn c.numQubits c.numClbits := by
  intro i member
  rcases List.mem_map.mp member with ⟨op, listed, rfl⟩
  rcases List.mem_map.mp (WireCut.mem_configured listed) with ⟨cut, present, same⟩
  have bounds := touched_inside (accepted cut present).touched
  rw [same] at bounds
  exact Instruction.single_fitsIn op.name bounds c.numClbits

theorem suffix_fits (accepted : ∀ cut ∈ cuts, c.Accepts cut) (index split : Nat) :
    ∀ i ∈ (WireCut.configured 1 cuts index).map LocalOp.instruction ++ c.data.drop split,
      i.FitsIn c.numQubits c.numClbits := by
  intro i member
  rcases List.mem_append.mp member with placed | kept
  · exact configured_fits accepted 1 index i placed
  · exact c.fits i (List.mem_of_mem_drop kept)

theorem splitPair_of_insertion {α : Type} [One α] [Mul α] [Coefficient α]
    (accepted : ∀ cut ∈ cuts, c.Accepts cut) {index : Nat} {coeff : α}
    (inserted : WireCut.insertion cuts index =
      .ok ⟨WireCut.configured 0 cuts index, WireCut.configured 1 cuts index, coeff⟩) :
    ∃ pair : SplitPair α, c.splitPair cuts index = .ok pair ∧ pair.coeff = coeff ∧
      pair.before.data = c.data.take (c.splitAt cuts) ++
        (WireCut.configured 0 cuts index).map LocalOp.instruction ∧
      pair.after.data = (WireCut.configured 1 cuts index).map LocalOp.instruction ++
        c.data.drop (c.splitAt cuts) ∧
      pair.before.SameFrame c ∧ pair.after.SameFrame c := by
  have first := (c.slice 0 (c.splitAt cuts)).appendAll_of_fitsIn (configured_fits accepted 0 index)
  have second := c.rebuild_of_fitsIn (suffix_fits accepted index (c.splitAt cuts))
  simp only [splitPair, splitPosition_toNat, inserted, bind, Except.bind]
  rw [first, second]
  exact ⟨_, rfl, rfl, rfl, rfl, ⟨rfl, rfl, rfl, rfl⟩, ⟨rfl, rfl, rfl, rfl⟩⟩

theorem splitPair_splits (accepted : ∀ cut ∈ cuts, c.Accepts cut) {index : Nat}
    (inside : index < 4 ^ cuts.length) :
    ∃ pair, c.splitPair cuts index = .ok pair ∧ c.Splits cuts index pair := by
  have inserted := WireCut.insertion_eq inside
  obtain ⟨pair, made, coeff, before, after, beforeFrame, afterFrame⟩ :=
    splitPair_of_insertion accepted inserted
  rw [← coeff] at inserted
  exact ⟨pair, made, before, after, coeff, inserted, beforeFrame, afterFrame⟩

theorem checkWorkers_ok {workers : Option Number}
    (staffed : ∀ number ∈ workers, number.atLeast 1 = true) :
    Batch.checkWorkers workers = .ok () := by
  cases workers with
  | none => rfl
  | some number =>
      have enough := Number.below_of_atLeast (staffed number rfl)
      simp [Batch.checkWorkers, enough]

theorem cutWires_outcome {α : Type} [One α] [Mul α] [Coefficient α] {workers : Option Number}
    (staffed : ∀ number ∈ workers, number.atLeast 1 = true)
    (accepted : c.checkCuts cuts = .ok ()) :
    (c.cutWires cuts workers : Report (List (SplitPair α))).outcome =
      (List.range (4 ^ cuts.length)).mapM (c.splitPair cuts) := by
  simp only [cutWires, accepted, checkWorkers_ok staffed, WireCut.count_bases, Report.liftM_ok,
    pure_bind, Report.outcome_emit_bind, Batch.run]
  rfl

theorem cutWires_splits {workers : Option Number}
    (staffed : ∀ number ∈ workers, number.atLeast 1 = true)
    (accepted : ∀ cut ∈ cuts, c.Accepts cut) :
    ∃ pairs, (c.cutWires cuts workers).outcome = .ok pairs ∧
      List.Forall₂ (c.Splits cuts) (List.range (4 ^ cuts.length)) pairs := by
  rw [cutWires_outcome staffed (checkCuts_eq_ok_iff.mpr accepted)]
  apply exists_mapM_ok
  intro index member
  exact splitPair_splits accepted (List.mem_range.mp member)

section

variable {α : Type} [One α] [Mul α] [Coefficient α]

structure Halves (c : Circuit) (cuts : List WireCut) (pair : SplitPair α) : Prop where
  before : ∃ ops : List (LocalOp Int),
    pair.before.data = c.data.take (c.splitAt cuts) ++ ops.map LocalOp.instruction
  after : ∃ ops : List (LocalOp Int),
    pair.after.data = ops.map LocalOp.instruction ++ c.data.drop (c.splitAt cuts)

theorem splitPair_halves (accepted : ∀ cut ∈ cuts, c.Accepts cut) {index : Nat}
    (inside : index < 4 ^ cuts.length) :
    ∃ pair : SplitPair α, c.splitPair cuts index = .ok pair ∧ c.Halves cuts pair := by
  obtain ⟨coeff, inserted⟩ := WireCut.insertion_configured α inside
  obtain ⟨pair, made, -, before, after, -⟩ := splitPair_of_insertion accepted inserted
  exact ⟨pair, made, ⟨_, before⟩, ⟨_, after⟩⟩

theorem cutWires_halves {workers : Option Number}
    (staffed : ∀ number ∈ workers, number.atLeast 1 = true)
    (accepted : c.checkCuts cuts = .ok ()) :
    ∃ pairs : List (SplitPair α), (c.cutWires cuts workers).outcome = .ok pairs ∧
      pairs.length = 4 ^ cuts.length ∧ ∀ pair ∈ pairs, c.Halves cuts pair := by
  have each : ∀ index ∈ List.range (4 ^ cuts.length),
      ∃ pair : SplitPair α, c.splitPair cuts index = .ok pair ∧ c.Halves cuts pair := by
    intro index member
    exact splitPair_halves (checkCuts_eq_ok_iff.mp accepted) (List.mem_range.mp member)
  obtain ⟨pairs, returned, halves⟩ := exists_mapM_ok each
  refine ⟨pairs, ?_, ?_, ?_⟩
  · rw [cutWires_outcome staffed accepted, returned]
  · rw [← halves.length_eq, List.length_range]
  · intro pair member
    obtain ⟨index, -, split⟩ := exists_of_forall₂ halves member
    exact split

theorem cutWires_returns {workers : Option Number}
    (staffed : ∀ number ∈ workers, number.atLeast 1 = true)
    (accepted : c.checkCuts cuts = .ok ()) :
    ∃ pairs : List (SplitPair α), (c.cutWires cuts workers).outcome = .ok pairs := by
  obtain ⟨pairs, returned, -⟩ := cutWires_halves (α := α) staffed accepted
  exact ⟨pairs, returned⟩

end

theorem accepts_of_placed (placed : ∀ cut ∈ cuts, ¬c.Misplaced cut) :
    ∀ cut ∈ cuts, c.Accepts cut := by
  intro cut member
  by_contra refused
  exact placed cut member (misplaced_iff.mpr refused)

/-- Cuts are refused exactly if one of them is misplaced. Otherwise there is a pair for each number
below `4 ^ k`, where `k` is the number of cuts. -/
theorem cutWires_pairs (c : Circuit) (cuts : List WireCut) (workers : Option Number)
    (staffed : ∀ number ∈ workers, number.atLeast 1 = true) :
    ((∃ fault, (c.cutWires cuts workers : Report (List (SplitPair ℚ))).outcome = .error fault ∧
      fault.kind = .value) ↔ ∃ cut ∈ cuts, c.Misplaced cut) ∧
    ((∀ cut ∈ cuts, ¬c.Misplaced cut) →
      ∃ pairs, (c.cutWires cuts workers).outcome = .ok pairs ∧
        List.Forall₂ (c.Splits cuts) (List.range (4 ^ cuts.length)) pairs) := by
  refine ⟨⟨?_, ?_⟩, fun placed => cutWires_splits staffed (accepts_of_placed placed)⟩
  · intro failed
    rcases failed with ⟨fault, refused, -⟩
    by_contra placed
    push Not at placed
    rcases cutWires_splits staffed (accepts_of_placed placed) with ⟨pairs, done, -⟩
    rw [done] at refused
    cases refused
  · intro found
    rcases found with ⟨cut, member, misplaced⟩
    cases checked : c.checkCuts cuts with
    | error fault =>
        refine ⟨fault, ?_, checkSitesFrom_fault_kind checked⟩
        rw [cutWires, checked]
        rfl
    | ok accepted =>
        have accepts := checkCuts_eq_ok_iff.mp checked cut member
        exact absurd accepts (misplaced_iff.mp misplaced)

def entangled : Circuit :=
  (empty [⟨"q", 3⟩] []).withData
    [Instruction.single "h" 0, ⟨"cx", [0, 1], [], []⟩, ⟨"barrier", [0, 1, 2], [], []⟩] (by decide)

theorem entangled_pairs :
    (∃ pairs, (entangled.cutWires [⟨2, 1⟩, ⟨1, 0⟩] (some (.integer 3))).outcome = .ok pairs ∧
      List.Forall₂ (entangled.Splits [⟨2, 1⟩, ⟨1, 0⟩]) (List.range 16) pairs) ∧
    entangled.splitAt [⟨2, 1⟩, ⟨1, 0⟩] = 2 ∧
    WireCut.configured 0 [⟨2, 1⟩, ⟨1, 0⟩] 11 = [⟨"h", 1⟩, ⟨"s", 1⟩, ⟨"h", 0⟩] ∧
    ∃ fault, (entangled.cutWires [⟨2, 1⟩, ⟨1, 2⟩] none : Report (List (SplitPair ℚ))).outcome =
      .error fault ∧ fault.kind = .value := by
  have pairs := cutWires_pairs entangled [⟨2, 1⟩, ⟨1, 0⟩] (some (.integer 3)) (by decide)
  have refused := cutWires_pairs entangled [⟨2, 1⟩, ⟨1, 2⟩] none (by decide)
  refine ⟨pairs.2 ?_, rfl, by decide, refused.1.mpr ⟨⟨1, 2⟩, by decide, ?_⟩⟩
  · unfold Misplaced
    decide
  · unfold Misplaced
    decide

end Pairs

end Circuit

end QuasiCut
