import Mathlib
import QuasiCut.Fragment
import QuasiCut.WireCut.Marker

/-! Markers put into a circuit and read back. A position counts only the instructions that are
kept, so ordered cuts and circuits with markers determine each other. -/

namespace QuasiCut

def marker (qubit : Int) : Instruction := Instruction.single markerName qubit

namespace WireCut

def Ordered (cuts : List WireCut) : Prop := cuts.Pairwise fun a b => a.position ≤ b.position

end WireCut

namespace Circuit

def markersAt (cuts : List WireCut) (position : Nat) : List Instruction :=
  (Fragment.cutQubits cuts position).map marker

/-- The instructions from `position` on, with the markers of the cuts before each of them and at
the end. -/
def markedFrom (cuts : List WireCut) : Nat → List Instruction → List Instruction
  | position, [] => markersAt cuts position
  | position, i :: rest => markersAt cuts position ++ i :: markedFrom cuts (position + 1) rest

def insertMarkers (c : Circuit) (cuts : List WireCut) : Except Fault Circuit :=
  c.rebuild (markedFrom cuts 0 c.data)

/-- Every marker acts on one qubit and has neither parameters nor classical bits. -/
def PlainMarkers (data : List Instruction) : Prop :=
  ∀ i ∈ data, i.isMarker = true → i.qubits.length = 1 ∧ i.params = [] ∧ i.clbits = []

def Unmarked (data : List Instruction) : Prop := ∀ i ∈ data, i.isMarker = false

theorem marker_isMarker (qubit : Int) : (marker qubit).isMarker = true := rfl

theorem eq_marker {i : Instruction} (named : i.isMarker = true) (single : i.qubits.length = 1)
    (params : i.params = []) (clbits : i.clbits = []) : ∃ qubit, i = marker qubit := by
  rcases List.length_eq_one_iff.mp single with ⟨qubit, acted⟩
  refine ⟨qubit, ?_⟩
  cases i
  simp only at acted params clbits
  subst acted params clbits
  exact congrArg (Instruction.mk · [qubit] [] []) (beq_iff_eq.mp named)

section Insert

variable {cuts : List WireCut} {position : Nat}

theorem markersAt_eq_nil (later : ∀ cut ∈ cuts, (position : Int) < cut.position) :
    markersAt cuts position = [] := by
  have none : cuts.filter (fun cut => decide (cut.position = (position : Int))) = [] := by
    rw [List.filter_eq_nil_iff]
    intro cut member
    have after := later cut member
    rw [decide_eq_true_eq]
    omega
  rw [markersAt, Fragment.cutQubits, none]
  rfl

theorem markersAt_cons_of_lt {cut : WireCut} (earlier : cut.position < position) :
    markersAt (cut :: cuts) position = markersAt cuts position := by
  have other : ¬cut.position = position := by omega
  simp [markersAt, Fragment.cutQubits, other]

theorem markersAt_cons_self (qubit : Int) :
    markersAt (⟨position, qubit⟩ :: cuts) position = marker qubit :: markersAt cuts position := by
  simp [markersAt, Fragment.cutQubits]

theorem markedFrom_cons_of_lt {cut : WireCut} (earlier : cut.position < position)
    (data : List Instruction) :
    markedFrom (cut :: cuts) position data = markedFrom cuts position data := by
  induction data generalizing position with
  | nil => exact markersAt_cons_of_lt earlier
  | cons i rest ih =>
      have next : cut.position < (position + 1 : Nat) := by omega
      rw [markedFrom, markedFrom, markersAt_cons_of_lt earlier, ih next]

theorem markedFrom_cons_self (qubit : Int) (data : List Instruction) :
    markedFrom (⟨position, qubit⟩ :: cuts) position data =
      marker qubit :: markedFrom cuts position data := by
  cases data with
  | nil => exact markersAt_cons_self qubit
  | cons i rest =>
      have next : (position : Int) < (position + 1 : Nat) := by omega
      rw [markedFrom, markedFrom, markersAt_cons_self, markedFrom_cons_of_lt next]
      rfl

theorem mem_markedFrom {data : List Instruction} {i : Instruction}
    (member : i ∈ markedFrom cuts position data) :
    i ∈ data ∨ ∃ cut ∈ cuts, i = marker cut.qubit := by
  have marked : ∀ {position : Nat}, i ∈ markersAt cuts position →
      ∃ cut ∈ cuts, i = marker cut.qubit := by
    intro position listed
    rcases List.mem_map.mp listed with ⟨qubit, severed, rfl⟩
    rcases List.mem_map.mp severed with ⟨cut, found, rfl⟩
    exact ⟨cut, (List.mem_filter.mp found).1, rfl⟩
  induction data generalizing position with
  | nil => exact Or.inr (marked member)
  | cons j rest ih =>
      rw [markedFrom, List.mem_append, List.mem_cons] at member
      rcases member with before | rfl | after
      · exact Or.inr (marked before)
      · exact Or.inl List.mem_cons_self
      · rcases ih after with kept | inserted
        · exact Or.inl (List.mem_cons_of_mem j kept)
        · exact Or.inr inserted

theorem filter_markersAt (cuts : List WireCut) (position : Nat) :
    (markersAt cuts position).filter (!·.isMarker) = [] := by
  rw [List.filter_eq_nil_iff]
  intro i member
  rcases List.mem_map.mp member with ⟨qubit, -, rfl⟩
  simp [marker_isMarker]

theorem filter_markedFrom {data : List Instruction} (unmarked : Unmarked data) :
    (markedFrom cuts position data).filter (!·.isMarker) = data := by
  induction data generalizing position with
  | nil => exact filter_markersAt cuts position
  | cons i rest ih =>
      have first := unmarked i List.mem_cons_self
      have later : Unmarked rest := fun j member => unmarked j (List.mem_cons_of_mem i member)
      rw [markedFrom, List.filter_append, filter_markersAt, List.nil_append, List.filter_cons,
        ih later, first]
      rfl

end Insert

section Read

variable {cuts : List WireCut}

theorem markersFrom_cons_marker (kept : Nat) (qubit : Int) (rest : List Instruction) :
    markersFrom kept (marker qubit :: rest) =
      (markersFrom kept rest).map (⟨kept, qubit⟩ :: ·) := by
  rw [markersFrom, if_pos (marker_isMarker qubit)]
  simp only [marker, Instruction.single]
  cases markersFrom kept rest <;> rfl

theorem markersFrom_cons_kept {i : Instruction} (unmarked : i.isMarker = false) (kept : Nat)
    (rest : List Instruction) :
    markersFrom kept (i :: rest) = markersFrom (kept + 1) rest := by
  rw [markersFrom, unmarked]
  rfl

theorem markersFrom_append_markers (kept : Nat) (qubits : List Int) (rest : List Instruction) :
    markersFrom kept (qubits.map marker ++ rest) =
      (markersFrom kept rest).map ((qubits.map fun qubit => ⟨kept, qubit⟩) ++ ·) := by
  induction qubits with
  | nil => cases found : markersFrom kept rest <;> simp [found, Except.map]
  | cons qubit qubits ih =>
      rw [List.map_cons, List.cons_append, markersFrom_cons_marker, ih]
      cases markersFrom kept rest <;> rfl

theorem cutQubits_cuts (cuts : List WireCut) (position : Nat) :
    (Fragment.cutQubits cuts position).map (fun qubit => (⟨position, qubit⟩ : WireCut)) =
      cuts.filter fun cut => decide (cut.position = (position : Int)) := by
  rw [Fragment.cutQubits, List.map_map]
  conv_rhs => rw [← List.map_id (cuts.filter _)]
  apply List.map_congr_left
  intro cut member
  have here : cut.position = position := of_decide_eq_true (List.mem_filter.mp member).2
  rw [Function.comp_apply, ← here]
  rfl

def cutsWithin (cuts : List WireCut) (first last : Nat) : List WireCut :=
  cuts.filter fun cut => decide ((first : Int) ≤ cut.position ∧ cut.position ≤ last)

theorem cutsWithin_succ (ordered : WireCut.Ordered cuts) {first last : Nat} (low : first ≤ last) :
    cutsWithin cuts first last =
      cuts.filter (fun cut => decide (cut.position = (first : Int))) ++
        cutsWithin cuts (first + 1) last := by
  induction cuts with
  | nil => rfl
  | cons cut rest ih =>
      rcases List.pairwise_cons.mp ordered with ⟨ahead, tail⟩
      -- Only in the last case is the order needed: nothing behind a later cut is at `first`.
      rcases lt_trichotomy cut.position first with before | here | after
      · have other : ¬cut.position = first := by omega
        have outside : ¬((first : Int) ≤ cut.position ∧ cut.position ≤ last) := by omega
        have beyond : ¬(((first + 1 : Nat) : Int) ≤ cut.position ∧ cut.position ≤ last) := by omega
        simp only [cutsWithin, List.filter_cons, decide_eq_true_eq, if_neg other, if_neg outside,
          if_neg beyond]
        exact ih tail
      · have inside : (first : Int) ≤ cut.position ∧ cut.position ≤ last := by omega
        have beyond : ¬(((first + 1 : Nat) : Int) ≤ cut.position ∧ cut.position ≤ last) := by omega
        simp only [cutsWithin, List.filter_cons, decide_eq_true_eq, if_pos here, if_pos inside,
          if_neg beyond]
        exact congrArg (cut :: ·) (ih tail)
      · have beyond : ∀ other ∈ cut :: rest, (first : Int) < other.position := by
          intro other member
          rcases List.mem_cons.mp member with rfl | listed
          · exact after
          · exact after.trans_le (ahead other listed)
        have none :
            (cut :: rest).filter (fun cut => decide (cut.position = (first : Int))) = [] := by
          rw [List.filter_eq_nil_iff]
          intro other member
          rw [decide_eq_true_eq]
          exact (beyond other member).ne'
        rw [none, List.nil_append]
        apply List.filter_congr
        intro other member
        have above := beyond other member
        rw [decide_eq_decide]
        omega

theorem markersFrom_markedFrom (ordered : WireCut.Ordered cuts) {data : List Instruction}
    (unmarked : Unmarked data) (position : Nat) :
    markersFrom position (markedFrom cuts position data) =
      .ok (cutsWithin cuts position (position + data.length)) := by
  induction data generalizing position with
  | nil =>
      have here : cutsWithin cuts position position =
          cuts.filter fun cut => decide (cut.position = (position : Int)) := by
        apply List.filter_congr
        intro cut member
        rw [decide_eq_decide]
        omega
      rw [markedFrom, markersAt, ← List.append_nil (List.map _ _), markersFrom_append_markers,
        cutQubits_cuts, List.length_nil, Nat.add_zero, here]
      exact congrArg Except.ok (List.append_nil _)
  | cons i rest ih =>
      have first := unmarked i List.mem_cons_self
      have later : Unmarked rest := fun j member => unmarked j (List.mem_cons_of_mem i member)
      have shifted : position + 1 + rest.length = position + (i :: rest).length := by
        rw [List.length_cons]
        omega
      rw [markedFrom, markersAt, markersFrom_append_markers, markersFrom_cons_kept first,
        ih later, cutQubits_cuts, shifted, cutsWithin_succ ordered (Nat.le_add_right _ _)]
      rfl

end Read

/-- Reading the markers among these instructions, which stand after `kept` others, gives these
cuts. -/
inductive Reads : Nat → List Instruction → List WireCut → Prop
  | nil (kept : Nat) : Reads kept [] []
  | severed {kept : Nat} {i : Instruction} {qubit : Int} {others : List Int}
      {rest : List Instruction} {cuts : List WireCut} (named : i.isMarker = true)
      (acted : i.qubits = qubit :: others) (later : Reads kept rest cuts) :
      Reads kept (i :: rest) (⟨kept, qubit⟩ :: cuts)
  | passed {kept : Nat} {i : Instruction} {rest : List Instruction} {cuts : List WireCut}
      (unmarked : i.isMarker = false) (later : Reads (kept + 1) rest cuts) :
      Reads kept (i :: rest) cuts

theorem exists_reads {data : List Instruction}
    (acting : ∀ i ∈ data, i.isMarker = true → i.qubits ≠ []) (kept : Nat) :
    ∃ cuts, Reads kept data cuts := by
  induction data generalizing kept with
  | nil => exact ⟨[], Reads.nil kept⟩
  | cons i rest ih =>
      rcases List.forall_mem_cons.mp acting with ⟨first, later⟩
      cases named : i.isMarker with
      | true =>
          rcases List.exists_cons_of_ne_nil (first named) with ⟨qubit, others, acted⟩
          rcases ih later kept with ⟨cuts, reads⟩
          exact ⟨_, Reads.severed named acted reads⟩
      | false =>
          rcases ih later (kept + 1) with ⟨cuts, reads⟩
          exact ⟨cuts, Reads.passed named reads⟩

namespace Reads

variable {kept : Nat} {data : List Instruction} {cuts : List WireCut}

theorem returned (reads : Reads kept data cuts) : markersFrom kept data = .ok cuts := by
  induction reads with
  | nil kept => rfl
  | severed named acted _ ih =>
      rw [markersFrom, if_pos named, acted, ih]
      rfl
  | passed unmarked _ ih => rw [markersFrom_cons_kept unmarked, ih]

theorem low (reads : Reads kept data cuts) : ∀ cut ∈ cuts, (kept : Int) ≤ cut.position := by
  induction reads with
  | nil kept => exact List.forall_mem_nil _
  | severed _ _ _ ih => exact List.forall_mem_cons.mpr ⟨le_rfl, ih⟩
  | passed _ _ ih =>
      intro cut member
      have least := ih cut member
      omega

theorem high (reads : Reads kept data cuts) :
    ∀ cut ∈ cuts, cut.position ≤ kept + (data.filter (!·.isMarker)).length := by
  induction reads with
  | nil kept => exact List.forall_mem_nil _
  | severed named _ _ ih =>
      rw [List.filter_cons_of_neg (by simp [named])]
      exact List.forall_mem_cons.mpr ⟨Int.le_add_of_nonneg_right (Int.natCast_nonneg _), ih⟩
  | passed unmarked _ ih =>
      intro cut member
      have most := ih cut member
      rw [List.filter_cons_of_pos (by simp [unmarked]), List.length_cons]
      omega

theorem ordered (reads : Reads kept data cuts) : WireCut.Ordered cuts := by
  induction reads with
  | nil kept => exact List.Pairwise.nil
  | severed _ _ later ih => exact List.pairwise_cons.mpr ⟨later.low, ih⟩
  | passed _ _ ih => exact ih

theorem restored (reads : Reads kept data cuts) (plain : PlainMarkers data) :
    markedFrom cuts kept (data.filter (!·.isMarker)) = data := by
  induction reads with
  | nil kept => rfl
  | severed named acted _ ih =>
      rcases List.forall_mem_cons.mp plain with ⟨first, later⟩
      rcases first named with ⟨single, params, clbits⟩
      rcases eq_marker named single params clbits with ⟨qubit, rfl⟩
      cases acted
      rw [List.filter_cons_of_neg (by simp [named]), markedFrom_cons_self, ih later]
  | @passed kept i rest cuts unmarked later ih =>
      have after : ∀ cut ∈ cuts, (kept : Int) < cut.position := by
        intro cut member
        have least := later.low cut member
        omega
      rw [List.filter_cons_of_pos (by simp [unmarked]), markedFrom, markersAt_eq_nil after,
        List.nil_append, ih (List.forall_mem_cons.mp plain).2]

end Reads

structure ReadBack (kept : Nat) (data : List Instruction) (cuts : List WireCut) : Prop where
  returned : markersFrom kept data = .ok cuts
  ordered : WireCut.Ordered cuts
  low : ∀ cut ∈ cuts, (kept : Int) ≤ cut.position
  high : ∀ cut ∈ cuts, cut.position ≤ kept + (data.filter (!·.isMarker)).length
  restored : markedFrom cuts kept (data.filter (!·.isMarker)) = data

theorem exists_readBack {data : List Instruction} (plain : PlainMarkers data) (kept : Nat) :
    ∃ cuts, ReadBack kept data cuts := by
  have acting : ∀ i ∈ data, i.isMarker = true → i.qubits ≠ [] := by
    intro i member named
    apply List.ne_nil_of_length_pos
    rw [(plain i member named).1]
    exact one_pos
  rcases exists_reads acting kept with ⟨cuts, reads⟩
  exact ⟨cuts, reads.returned, reads.ordered, reads.low, reads.high, reads.restored plain⟩

section RoundTrip

variable {c : Circuit} {cuts : List WireCut}

theorem readMarkers_of_returned (returned : markersFrom 0 c.data = .ok cuts) :
    c.readMarkers = .ok (c.filter (!·.isMarker), cuts) := by
  rw [readMarkers, returned]
  rfl

theorem insertMarkers_filter (restored : markedFrom cuts 0 (c.data.filter (!·.isMarker)) = c.data) :
    (c.filter (!·.isMarker)).insertMarkers cuts = .ok c := by
  have data : (c.filter (!·.isMarker)).data = c.data.filter (!·.isMarker) := rfl
  rw [insertMarkers, data, restored]
  exact (c.filter (!·.isMarker)).rebuild_of_fitsIn c.fits

theorem markedFrom_fits (inside : ∀ cut ∈ cuts, 0 ≤ cut.qubit ∧ cut.qubit < c.numQubits) :
    ∀ i ∈ markedFrom cuts 0 c.data, i.FitsIn c.numQubits c.numClbits := by
  intro i member
  rcases mem_markedFrom member with kept | ⟨cut, listed, rfl⟩
  · exact c.fits i kept
  · exact Instruction.single_fitsIn markerName (inside cut listed) c.numClbits

theorem filter_marked (unmarked : Unmarked c.data)
    (fits : ∀ i ∈ markedFrom cuts 0 c.data, i.FitsIn c.numQubits c.numClbits) :
    (c.withData (markedFrom cuts 0 c.data) fits).filter (!·.isMarker) = c := by
  have data : (markedFrom cuts 0 c.data).filter (!·.isMarker) = c.data := filter_markedFrom unmarked
  simp only [filter, withData, data]

/-- Markers that are read and put back give the circuit again, and ordered cuts that are marked and
read give the circuit and the cuts again. -/
theorem markers_inverse (c : Circuit) :
    (PlainMarkers c.data → ∃ stripped cuts, c.readMarkers = .ok (stripped, cuts) ∧
      Unmarked stripped.data ∧ WireCut.Ordered cuts ∧
        (∀ cut ∈ cuts, 0 ≤ cut.position ∧ cut.position ≤ stripped.data.length) ∧
          stripped.insertMarkers cuts = .ok c) ∧
    ∀ cuts, Unmarked c.data → WireCut.Ordered cuts →
      (∀ cut ∈ cuts, 0 ≤ cut.position ∧ cut.position ≤ c.data.length) →
        (∀ cut ∈ cuts, 0 ≤ cut.qubit ∧ cut.qubit < c.numQubits) →
          ∃ marked, c.insertMarkers cuts = .ok marked ∧ marked.readMarkers = .ok (c, cuts) := by
  constructor
  · intro plain
    rcases exists_readBack plain 0 with ⟨cuts, read⟩
    refine ⟨c.filter (!·.isMarker), cuts, readMarkers_of_returned read.returned, ?_, read.ordered,
      ?_, insertMarkers_filter read.restored⟩
    · intro i member
      have kept := (List.mem_filter.mp member).2
      exact Bool.not_eq_true' _ |>.mp kept
    · intro cut member
      have high := read.high cut member
      rw [Int.natCast_zero, Int.zero_add] at high
      exact ⟨read.low cut member, high⟩
  · intro cuts unmarked ordered positions qubits
    have fits := markedFrom_fits qubits
    have read := markersFrom_markedFrom ordered unmarked 0
    have all : cutsWithin cuts 0 (0 + c.data.length) = cuts := by
      apply List.filter_eq_self.mpr
      intro cut member
      have bounds := positions cut member
      rw [decide_eq_true_eq]
      omega
    rw [all] at read
    refine ⟨_, c.rebuild_of_fitsIn fits, (readMarkers_of_returned read).trans ?_⟩
    rw [filter_marked unmarked fits]

end RoundTrip

def bridge : Circuit :=
  (empty [⟨"q", 2⟩] []).withData [⟨"cx", [0, 1], [], []⟩, Instruction.single "h" 1] (by decide)

def markedBridge : Circuit :=
  (empty [⟨"q", 2⟩] []).withData
    [marker 0, ⟨"cx", [0, 1], [], []⟩, marker 1, marker 1, Instruction.single "h" 1, marker 0]
    (by decide)

theorem markedBridge_inverse :
    (PlainMarkers markedBridge.data ∧
      ∃ stripped cuts, markedBridge.readMarkers = .ok (stripped, cuts) ∧
        stripped.insertMarkers cuts = .ok markedBridge) ∧
    (Unmarked bridge.data ∧ WireCut.Ordered [⟨0, 0⟩, ⟨1, 1⟩, ⟨1, 1⟩, ⟨2, 0⟩] ∧
      ∃ marked, bridge.insertMarkers [⟨0, 0⟩, ⟨1, 1⟩, ⟨1, 1⟩, ⟨2, 0⟩] = .ok marked ∧
        marked = markedBridge ∧
          marked.readMarkers = .ok (bridge, [⟨0, 0⟩, ⟨1, 1⟩, ⟨1, 1⟩, ⟨2, 0⟩])) := by
  have plain : PlainMarkers markedBridge.data := by
    unfold PlainMarkers
    decide
  have unmarked : Unmarked bridge.data := by
    unfold Unmarked
    decide
  have ordered : WireCut.Ordered [⟨0, 0⟩, ⟨1, 1⟩, ⟨1, 1⟩, ⟨2, 0⟩] := by
    unfold WireCut.Ordered
    decide
  rcases (markers_inverse markedBridge).1 plain with ⟨stripped, cuts, read, -, -, -, restored⟩
  rcases (markers_inverse bridge).2 _ unmarked ordered (by decide) (by decide) with
    ⟨marked, inserted, reread⟩
  have same : bridge.insertMarkers [⟨0, 0⟩, ⟨1, 1⟩, ⟨1, 1⟩, ⟨2, 0⟩] = .ok markedBridge := by rfl
  rw [same] at inserted
  cases inserted
  exact ⟨⟨plain, stripped, cuts, read, restored⟩, unmarked, ordered, _, same, rfl, reread⟩

end Circuit
end QuasiCut
