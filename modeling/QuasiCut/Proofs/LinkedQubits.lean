import Mathlib
import QuasiCut.Proofs.SliceBudget

/-! Fragments of a circuit without cuts. Each qubit is then one segment, so a fragment is a set of
qubits that instructions link, and instructions on one qubit link nothing. -/

namespace QuasiCut

def Meet (data : List Instruction) (q r : Int) : Prop :=
  ∃ i ∈ data, i.isBarrier = false ∧ q ∈ i.qubits ∧ r ∈ i.qubits

/-- The equivalence generated by the qubits that instructions act on together. -/
def Linked (data : List Instruction) : Int → Int → Prop := Relation.EqvGen (Meet data)

noncomputable def linkCount (data : List Instruction) (q : Int) : Nat :=
  Nat.card {r // Linked data q r}

theorem Linked.transfer {data other : List Instruction}
    (each : ∀ i ∈ data, i ∈ other ∨ i.qubits.length ≤ 1) {q r : Int} (linked : Linked data q r) :
    Linked other q r := by
  induction linked with
  | rel q r meet =>
      rcases meet with ⟨i, member, acting, first, second⟩
      rcases each i member with kept | narrow
      · exact .rel q r ⟨i, kept, acting, first, second⟩
      · have same : q = r := by
          cases qubits : i.qubits with
          | nil =>
              rw [qubits] at first
              cases first
          | cons only others =>
              rw [qubits, List.length_cons] at narrow
              have single : others = [] := List.length_eq_zero_iff.mp (by omega)
              rw [qubits, single, List.mem_singleton] at first second
              exact first.trans second.symm
        rw [same]
        exact .refl r
  | refl q => exact .refl q
  | symm q r _ ih => exact .symm q r ih
  | trans p q r _ _ first second => exact .trans p q r first second

namespace Circuit

variable {c : Circuit} {budget : Number}

theorem Use.meet {u v : c.Use} (together : u.position = v.position) :
    Meet c.data u.qubit v.qubit := by
  rcases u.acts with ⟨i, present, acting, acted⟩
  exact ⟨i, List.mem_of_getElem? present, acting, acted, (Use.acts_of present together.symm).2⟩

theorem exists_uses_of_meet {q r : Int} (meet : Meet c.data q r) :
    ∃ u v : c.Use, u.position = v.position ∧ u.qubit = q ∧ v.qubit = r := by
  rcases meet with ⟨i, member, acting, first, second⟩
  rcases List.getElem?_of_mem member with ⟨position, present⟩
  exact ⟨⟨position, q, i, present, acting, first⟩, ⟨position, r, i, present, acting, second⟩,
    rfl, rfl, rfl⟩

theorem cluster_eq_of_qubit {u v : c.Use} (same : u.qubit = v.qubit) :
    u.cluster [] = v.cluster [] :=
  congrArg Segment.cluster (segment_uncut.mpr same)

def Segment.qubit {cuts : List WireCut} : c.Segment cuts → Int :=
  Quotient.lift Use.qubit fun _ _ same => same.1

theorem linked_of_cluster {u : c.Use} {s : c.Segment []} (same : s.cluster = u.cluster []) :
    Linked c.data u.qubit s.qubit := by
  have agree : Linked c.data u.qubit s.qubit = Linked c.data u.qubit u.qubit := by
    apply eq_of_cluster_eq (fun s : c.Segment [] => Linked c.data u.qubit s.qubit) _ same
    intro v w together
    apply propext
    constructor
    · intro linked
      exact .trans _ _ _ linked (.rel _ _ (Use.meet together))
    · intro linked
      exact .trans _ _ _ linked (.rel _ _ (Use.meet together.symm))
  rw [agree]
  exact .refl u.qubit

/-- Linked qubits are the same, or both are used and their uses are in one fragment. -/
theorem eq_or_cluster_of_linked {q r : Int} (linked : Linked c.data q r) :
    q = r ∨ ∃ u v : c.Use, u.qubit = q ∧ v.qubit = r ∧ u.cluster [] = v.cluster [] := by
  induction linked with
  | rel q r meet =>
      rcases exists_uses_of_meet meet with ⟨u, v, together, first, second⟩
      exact Or.inr ⟨u, v, first, second, cluster_eq_of_position together⟩
  | refl q => exact Or.inl rfl
  | symm q r _ ih =>
      rcases ih with same | ⟨u, v, first, second, shared⟩
      · exact Or.inl same.symm
      · exact Or.inr ⟨v, u, second, first, shared.symm⟩
  | trans p q r _ _ left right =>
      rcases left with rfl | ⟨u, v, first, second, shared⟩
      · exact right
      · rcases right with rfl | ⟨v', w, third, fourth, shared'⟩
        · exact Or.inr ⟨u, v, first, second, shared⟩
        · refine Or.inr ⟨u, w, first, fourth, ?_⟩
          calc
            u.cluster [] = v.cluster [] := shared
            _ = v'.cluster [] := cluster_eq_of_qubit (second.trans third.symm)
            _ = w.cluster [] := shared'

theorem width_uncut (u : c.Use) : (u.cluster []).width = linkCount c.data u.qubit := by
  apply Nat.card_eq_of_bijective
    (fun s : {s : c.Segment [] // s.cluster = u.cluster []} =>
      (⟨s.1.qubit, linked_of_cluster s.2⟩ : {r // Linked c.data u.qubit r}))
  constructor
  · intro s t same
    rcases s with ⟨s, inside⟩
    rcases t with ⟨t, inside'⟩
    rcases exists_use s with ⟨v, rfl⟩
    rcases exists_use t with ⟨w, rfl⟩
    exact Subtype.ext (segment_uncut.mpr (congrArg Subtype.val same))
  · intro r
    rcases r with ⟨r, linked⟩
    rcases eq_or_cluster_of_linked linked with same | ⟨v, w, first, second, shared⟩
    · exact ⟨⟨u.segment [], rfl⟩, Subtype.ext same⟩
    · have inside : w.cluster [] = u.cluster [] := shared.symm.trans (cluster_eq_of_qubit first)
      exact ⟨⟨w.segment [], inside⟩, Subtype.ext second⟩

theorem linkCount_unused {q : Int} (unused : ∀ u : c.Use, u.qubit ≠ q) :
    linkCount c.data q = 1 := by
  have alone : ∀ r, Linked c.data q r → r = q := by
    intro r linked
    rcases eq_or_cluster_of_linked linked with same | ⟨u, v, first, -⟩
    · exact same.symm
    · exact absurd first (unused u)
  have one : Subsingleton {r // Linked c.data q r} := by
    constructor
    intro r s
    exact Subtype.ext ((alone r.1 r.2).trans (alone s.1 s.2).symm)
  have some : Nonempty {r // Linked c.data q r} := ⟨⟨q, .refl q⟩⟩
  exact Nat.card_unique

theorem linked_finite (q : Int) : {r | Linked c.data q r}.Finite := by
  have inside : {r | Linked c.data q r} ⊆ insert q (Set.range (Use.qubit : c.Use → Int)) := by
    intro r linked
    rcases eq_or_cluster_of_linked linked with same | ⟨u, v, -, second, -⟩
    · exact Or.inl same.symm
    · exact Or.inr ⟨v, second⟩
  exact ((Set.finite_range _).insert q).subset inside

/-- A circuit without cuts fits when no qubit is linked to too many. A qubit that is not used
counts as one. -/
theorem cutsFit_uncut_iff (positive : budget.atLeast 1 = true) :
    c.cutsFit [] budget = true ↔ ∀ q, budget.atLeast (linkCount c.data q) = true := by
  rw [cutsFit_iff]
  constructor
  · intro fit q
    by_cases used : ∃ u : c.Use, u.qubit = q
    · rcases used with ⟨u, rfl⟩
      rw [← width_uncut]
      exact fit (u.cluster [])
    · rw [linkCount_unused fun u same => used ⟨u, same⟩]
      exact positive
  · intro fit f
    rcases f.exists_use with ⟨u, rfl⟩
    rw [width_uncut]
    exact fit u.qubit

/-- A part of a circuit fits where the circuit does, whatever instructions on single qubits are
added to the part. -/
theorem cutsFit_of_transfer {part : Circuit}
    (each : ∀ i ∈ part.data, i ∈ c.data ∨ i.qubits.length ≤ 1) (positive : budget.atLeast 1 = true)
    (fit : c.cutsFit [] budget = true) : part.cutsFit [] budget = true := by
  rw [cutsFit_uncut_iff positive] at fit ⊢
  intro q
  have fewer : linkCount part.data q ≤ linkCount c.data q :=
    Nat.card_mono (linked_finite q) fun r linked => Linked.transfer each linked
  exact Number.atLeast_of_le (Int.ofNat_le.mpr fewer) (fit q)

end Circuit
end QuasiCut
