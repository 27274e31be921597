import Mathlib
import QuasiCut.Fragment

/-! Segments and fragments of a cut circuit, declared without a scan. A segment is a class of uses
of one qubit that no cut separates, and a cluster is a class of segments that instructions join. -/

namespace QuasiCut

/-- A cut on the qubit comes after instruction `first` and not after instruction `last`. -/
def Severed (cuts : List WireCut) (qubit : Int) (first last : Nat) : Prop :=
  ∃ cut ∈ cuts, cut.qubit = qubit ∧ (first : Int) < cut.position ∧ cut.position ≤ last

namespace Circuit

@[ext] structure Use (c : Circuit) where
  position : Nat
  qubit : Int
  acts : ∃ i, c.data[position]? = some i ∧ i.isBarrier = false ∧ qubit ∈ i.qubits

variable {c : Circuit} {cuts : List WireCut}

theorem Use.position_lt (u : c.Use) : u.position < c.data.length := by
  obtain ⟨i, found, -⟩ := u.acts
  exact (List.getElem?_eq_some_iff.mp found).1

theorem Use.acts_of {count : Nat} {i : Instruction} (present : c.data[count]? = some i) {u : c.Use}
    (here : u.position = count) : i.isBarrier = false ∧ u.qubit ∈ i.qubits := by
  obtain ⟨j, found, acting⟩ := u.acts
  rw [here, present] at found
  cases found
  exact acting

instance : Finite c.Use := by
  let qubits : Finset Int := (c.data.flatMap (·.qubits)).toFinset
  have inside : ∀ u : c.Use, u.qubit ∈ qubits := by
    intro u
    obtain ⟨i, found, -, member⟩ := u.acts
    rw [List.mem_toFinset]
    exact List.mem_flatMap.mpr ⟨i, List.mem_of_getElem? found, member⟩
  refine Finite.of_injective
    (fun u => (⟨u.position, u.position_lt⟩, ⟨u.qubit, inside u⟩) :
      c.Use → Fin c.data.length × qubits) ?_
  intro u v same
  simp only [Prod.mk.injEq, Fin.mk.injEq, Subtype.mk.injEq] at same
  exact Use.ext same.1 same.2

/-- Two uses of one qubit with no cut between them. -/
def SameSegment (cuts : List WireCut) (u v : c.Use) : Prop :=
  u.qubit = v.qubit ∧
    ¬Severed cuts u.qubit (min u.position v.position) (max u.position v.position)

theorem sameSegment_equivalence : Equivalence (SameSegment cuts : c.Use → c.Use → Prop) where
  refl u := by
    refine ⟨rfl, ?_⟩
    rintro ⟨cut, -, -, after, before⟩
    omega
  symm := by
    rintro u v ⟨qubit, whole⟩
    rw [qubit, min_comm, max_comm] at whole
    exact ⟨qubit.symm, whole⟩
  trans := by
    rintro u v w ⟨first, left⟩ ⟨second, right⟩
    refine ⟨first.trans second, ?_⟩
    rintro ⟨cut, member, qubit, after, before⟩
    -- A cut between the outer two is between the middle one and one of them.
    by_cases low : (min u.position v.position : Int) < cut.position ∧
        cut.position ≤ (max u.position v.position : Int)
    · exact left ⟨cut, member, qubit, by omega, by omega⟩
    · exact right ⟨cut, member, qubit.trans first, by omega, by omega⟩

def segmentSetoid (c : Circuit) (cuts : List WireCut) : Setoid c.Use :=
  ⟨SameSegment cuts, sameSegment_equivalence⟩

def Segment (c : Circuit) (cuts : List WireCut) : Type := Quotient (segmentSetoid c cuts)

def Use.segment (cuts : List WireCut) (u : c.Use) : c.Segment cuts :=
  Quotient.mk (segmentSetoid c cuts) u

instance : Finite (c.Segment cuts) := inferInstanceAs (Finite (Quotient (segmentSetoid c cuts)))

theorem segment_eq_iff {u v : c.Use} : u.segment cuts = v.segment cuts ↔ SameSegment cuts u v :=
  Quotient.eq

theorem segment_eq_of_le {u v : c.Use} (qubit : u.qubit = v.qubit)
    (earlier : u.position ≤ v.position) :
    u.segment cuts = v.segment cuts ↔ ¬Severed cuts u.qubit u.position v.position := by
  rw [segment_eq_iff, SameSegment, min_eq_left earlier, max_eq_right earlier]
  exact and_iff_right qubit

theorem exists_use (s : c.Segment cuts) : ∃ u : c.Use, u.segment cuts = s := Quotient.exists_rep s

def Segment.Joined (s t : c.Segment cuts) : Prop :=
  ∃ u v : c.Use, u.position = v.position ∧ u.segment cuts = s ∧ v.segment cuts = t

/-- A fragment: a class of the equivalence that joined segments generate. -/
def Cluster (c : Circuit) (cuts : List WireCut) : Type :=
  Quotient (Relation.EqvGen.setoid (Segment.Joined : c.Segment cuts → c.Segment cuts → Prop))

def Segment.cluster (s : c.Segment cuts) : c.Cluster cuts :=
  Quotient.mk (Relation.EqvGen.setoid Segment.Joined) s

def Use.cluster (cuts : List WireCut) (u : c.Use) : c.Cluster cuts := (u.segment cuts).cluster

noncomputable def Cluster.width (f : c.Cluster cuts) : Nat :=
  Nat.card {s : c.Segment cuts // s.cluster = f}

noncomputable def Cluster.first (f : c.Cluster cuts) : Nat :=
  sInf {position | ∃ u : c.Use, u.position = position ∧ u.cluster cuts = f}

theorem cluster_eq_of_position {u v : c.Use} (same : u.position = v.position) :
    u.cluster cuts = v.cluster cuts :=
  Quotient.sound (Relation.EqvGen.rel _ _ ⟨u, v, same, rfl, rfl⟩)

/-- A value that joined segments share is shared by the segments of a cluster. -/
theorem eq_of_cluster_eq {α : Sort*} (value : c.Segment cuts → α)
    (agrees : ∀ u v : c.Use, u.position = v.position →
      value (u.segment cuts) = value (v.segment cuts))
    {s t : c.Segment cuts} (same : s.cluster = t.cluster) : value s = value t := by
  have chain : Relation.EqvGen Segment.Joined s t := Quotient.exact same
  clear same
  induction chain with
  | rel s t joined =>
      obtain ⟨u, v, position, rfl, rfl⟩ := joined
      exact agrees u v position
  | refl s => rfl
  | symm s t _ ih => exact ih.symm
  | trans s t r _ _ first second => exact first.trans second

theorem Cluster.exists_use (f : c.Cluster cuts) : ∃ u : c.Use, u.cluster cuts = f := by
  obtain ⟨s, rfl⟩ := Quotient.exists_rep f
  obtain ⟨u, rfl⟩ := Circuit.exists_use s
  exact ⟨u, rfl⟩

theorem Cluster.exists_first (f : c.Cluster cuts) :
    ∃ u : c.Use, u.position = f.first ∧ u.cluster cuts = f := by
  obtain ⟨u, inside⟩ := f.exists_use
  exact Nat.sInf_mem (s := {position | ∃ u : c.Use, u.position = position ∧ u.cluster cuts = f})
    ⟨u.position, u, rfl, inside⟩

theorem Cluster.first_le (u : c.Use) : (u.cluster cuts).first ≤ u.position :=
  Nat.sInf_le ⟨u, rfl, rfl⟩

end Circuit
end QuasiCut
