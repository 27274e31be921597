import Mathlib
import QuasiCut.Proofs.Markers
import QuasiCut.Proofs.SliceBudget

/-! Slicing at markers. To read the markers of a circuit, check the cuts they stand for and slice at
the positions of those cuts comes to splitting the list of instructions at the markers. -/

namespace QuasiCut

namespace Circuit

def markedQubits (data : List Instruction) : List Int :=
  (data.filter Instruction.isMarker).filterMap fun i => i.qubits.head?

theorem modifyHead_nil_append (runs : List (List Instruction)) :
    runs.modifyHead ([] ++ ·) = runs := by
  cases runs <;> rfl

namespace Reads

variable {kept : Nat} {data : List Instruction} {cuts : List WireCut}

theorem qubits (reads : Reads kept data cuts) : cuts.map WireCut.qubit = markedQubits data := by
  induction reads with
  | nil kept => rfl
  | severed named acted _ ih => simp [markedQubits, named, acted, ih]
  | passed unmarked _ ih => simp [markedQubits, unmarked, ih]

theorem length (reads : Reads kept data cuts) :
    cuts.length = (data.filter Instruction.isMarker).length := by
  induction reads with
  | nil kept => rfl
  | severed named _ _ ih => simp [named, ih]
  | passed unmarked _ ih => simp [unmarked, ih]

/-- The slices at the cuts are the runs between the markers. What stands before the instructions,
from the last cut on, begins the first run. -/
theorem slices (reads : Reads kept data cuts) {s : Circuit} (before : List Instruction)
    (whole : s.data = before ++ data.filter (!·.isMarker)) (length : before.length = kept)
    {start : Nat} (earlier : start ≤ kept) :
    (s.slicesFrom start (cuts.map (·.position.toNat))).map Circuit.data =
      (data.splitOnP Instruction.isMarker).modifyHead (before.drop start ++ ·) := by
  -- A marker ends the run that is open at it; any other instruction moves into what stands before.
  induction reads generalizing before start with
  | nil kept =>
      have rest : (s.slice start s.data.length).data = before.drop start := by
        show (s.data.take s.data.length).drop start = before.drop start
        rw [List.take_length, whole, List.filter_nil, List.append_nil]
      simp [slicesFrom, rest]
  | @severed kept i qubit others rest cuts named acted later ih =>
      rw [List.filter_cons_of_neg (by simp [named])] at whole
      have run : (s.slice start kept).data = before.drop start := by
        show (s.data.take kept).drop start = before.drop start
        rw [whole, ← length, List.take_left]
      have next := ih before whole length le_rfl
      rw [← length, List.drop_length, modifyHead_nil_append] at next
      rw [List.splitOnP_cons_eq_if_modifyHead, if_pos named, List.modifyHead_cons, List.append_nil,
        List.map_cons, slicesFrom, List.map_cons, Int.toNat_natCast, run, ← length, next]
  | @passed kept i rest cuts unmarked later ih =>
      rw [List.filter_cons_of_pos (by simp [unmarked])] at whole
      have shifted : s.data = (before ++ [i]) ++ rest.filter (!·.isMarker) := by
        rw [whole, List.append_assoc, List.singleton_append]
      have grown : (before ++ [i]).length = kept + 1 := by simp [length]
      rw [ih (before ++ [i]) shifted grown (by omega), List.splitOnP_cons_eq_if_modifyHead, unmarked,
        if_neg Bool.false_ne_true, List.modifyHead_modifyHead,
        List.drop_append_of_le_length (length ▸ earlier)]
      congr 1
      funext run
      simp

end Reads

theorem sorted_of_ordered {cuts : List WireCut} (ordered : WireCut.Ordered cuts) :
    WireCut.sorted cuts = cuts :=
  List.mergeSort_of_pairwise (ordered.imp decide_eq_true)

/-- Some marker is on a qubit that no instruction acts on but barriers and markers. -/
def IdleMarker (c : Circuit) : Prop :=
  ∃ qubit ∈ markedQubits c.data, ∀ i ∈ c.data, i.isBarrier = false → i.isMarker = false →
    qubit ∉ i.qubits

section Slices

variable {c : Circuit} {cuts : List WireCut}

theorem mem_touched_filter {qubit : Int} :
    qubit ∈ (c.filter (!·.isMarker)).touched ↔
      ∃ i ∈ c.data, i.isBarrier = false ∧ i.isMarker = false ∧ qubit ∈ i.qubits := by
  rw [mem_touched]
  show (∃ i ∈ c.data.filter (!·.isMarker), _) ↔ _
  simp only [List.mem_filter, Bool.not_eq_true']
  constructor
  · intro found
    rcases found with ⟨i, ⟨member, unmarked⟩, acting, acted⟩
    exact ⟨i, member, acting, unmarked, acted⟩
  · intro found
    rcases found with ⟨i, member, acting, unmarked, acted⟩
    exact ⟨i, ⟨member, unmarked⟩, acting, acted⟩

theorem exists_unaccepted_iff (reads : Reads 0 c.data cuts) :
    (∃ cut ∈ cuts, ¬(c.filter (!·.isMarker)).Accepts cut) ↔ c.IdleMarker := by
  have accepts : ∀ cut ∈ cuts, (c.filter (!·.isMarker)).Accepts cut ↔
      cut.qubit ∈ (c.filter (!·.isMarker)).touched := by
    intro cut member
    have high := reads.high cut member
    rw [Int.natCast_zero, Int.zero_add] at high
    exact ⟨fun accepted => accepted.touched, fun touched => ⟨reads.low cut member, high, touched⟩⟩
  rw [IdleMarker, ← reads.qubits]
  constructor
  · intro found
    rcases found with ⟨cut, member, refused⟩
    rw [accepts cut member, mem_touched_filter] at refused
    refine ⟨cut.qubit, List.mem_map_of_mem member, ?_⟩
    intro i present acting unmarked acted
    exact refused ⟨i, present, acting, unmarked, acted⟩
  · intro found
    rcases found with ⟨qubit, listed, idle⟩
    rcases List.mem_map.mp listed with ⟨cut, member, rfl⟩
    refine ⟨cut, member, ?_⟩
    rw [accepts cut member, mem_touched_filter]
    intro used
    rcases used with ⟨i, present, acting, unmarked, acted⟩
    exact idle i present acting unmarked acted

theorem slicesFrom_sameFrame {start : Nat} {stops : List Nat} :
    ∀ part ∈ c.slicesFrom start stops, part.SameFrame c := by
  induction stops generalizing start with
  | nil =>
      intro part member
      rw [List.mem_singleton.mp member]
      exact c.withData_sameFrame _ _
  | cons stop rest ih => exact List.forall_mem_cons.mpr ⟨c.withData_sameFrame _ _, ih⟩

/-- The runs between the markers, and a record of the qubit that ends each of them. -/
structure SplitsAtMarkers (c : Circuit) (result : CutCircuit) : Prop where
  runs : result.subcircuits.map Circuit.data = c.data.splitOnP Instruction.isMarker
  frame : ∀ part ∈ result.subcircuits, part.SameFrame c
  records : result.cuts = (markedQubits c.data).zipIdx.map fun (qubit, index) =>
    ⟨index, .integer qubit, .wire⟩

theorem slices_splitsAtMarkers (reads : Reads 0 c.data cuts) {result : CutCircuit}
    (slices : result.subcircuits = (c.filter (!·.isMarker)).slicesFrom 0 (slicePositions cuts))
    (records : result.cuts = (WireCut.sorted cuts).zipIdx.map fun (cut, index) =>
      ⟨index, cut.qubit, .wire⟩) : c.SplitsAtMarkers result := by
  have sorted := sorted_of_ordered reads.ordered
  constructor
  · rw [slices, slicePositions, sorted, reads.slices [] rfl rfl le_rfl, List.drop_nil,
      modifyHead_nil_append]
  · rw [slices]
    exact slicesFrom_sameFrame
  · rw [records, sorted, ← reads.qubits, List.zipIdx_map, List.map_map]
    rfl

/-- Slicing at the markers of a circuit splits its instructions at the markers. It is refused exactly
if some marker is on a qubit that nothing else acts on. -/
theorem markers_slice (c : Circuit) (few : (c.data.filter Instruction.isMarker).length < 512)
    (acting : ∀ i ∈ c.data, i.isMarker = true → i.qubits ≠ []) :
    ∃ stripped cuts, c.readMarkers = .ok (stripped, cuts) ∧
      ((∃ fault, (stripped.sliceAtCuts cuts).outcome = .error fault ∧ fault.kind = .value) ↔
        c.IdleMarker) ∧
      (¬c.IdleMarker → ∃ result, (stripped.sliceAtCuts cuts).outcome = .ok result ∧
        c.SplitsAtMarkers result) := by
  rcases exists_reads acting 0 with ⟨cuts, reads⟩
  rw [← reads.length] at few
  refine ⟨c.filter (!·.isMarker), cuts, readMarkers_of_returned reads.returned, ?_, ?_⟩
  · rw [sliceAtCuts_value_fault_iff few, exists_unaccepted_iff reads]
  · intro used
    rw [← exists_unaccepted_iff reads] at used
    push Not at used
    rcases sliceAtCuts_outcome few (checkCuts_eq_ok_iff.mpr used) with
      ⟨result, returned, slices, records⟩
    exact ⟨result, returned, slices_splitsAtMarkers reads slices records⟩

def idleEnd : Circuit :=
  (empty [⟨"q", 3⟩] []).withData
    [⟨"cx", [0, 1], [], []⟩, ⟨"barrier", [0, 1, 2], [], []⟩, ⟨markerName, [2, 0], [], []⟩] (by decide)

theorem markedBridge_slices :
    (∃ stripped cuts, markedBridge.readMarkers = .ok (stripped, cuts) ∧
      ∃ result, (stripped.sliceAtCuts cuts).outcome = .ok result ∧
        markedBridge.SplitsAtMarkers result) ∧
    markedBridge.data.splitOnP Instruction.isMarker =
      [[], [⟨"cx", [0, 1], [], []⟩], [], [Instruction.single "h" 1], []] ∧
    markedQubits markedBridge.data = [0, 1, 1, 0] ∧
    ∃ stripped cuts, idleEnd.readMarkers = .ok (stripped, cuts) ∧
      ∃ fault, (stripped.sliceAtCuts cuts).outcome = .error fault ∧ fault.kind = .value := by
  have used : ¬markedBridge.IdleMarker := by
    unfold IdleMarker
    decide
  have idle : idleEnd.IdleMarker := by
    unfold IdleMarker
    decide
  rcases markers_slice markedBridge (by decide) (by decide) with ⟨stripped, cuts, read, -, splits⟩
  rcases markers_slice idleEnd (by decide) (by decide) with ⟨stripped', cuts', read', refused, -⟩
  exact ⟨⟨stripped, cuts, read, splits used⟩, by decide, by decide, stripped', cuts', read',
    refused.mpr idle⟩

end Slices

end Circuit
end QuasiCut
