import Mathlib
import QuasiCut.Proofs.MarkerSlices

/-! Slices at cuts in any order. Sorting keeps the order of the cuts at one position, and a list in
order is determined by the cuts it has at each position. So only that order matters for slicing. -/

namespace QuasiCut

namespace WireCut

variable {cuts other ordered : List WireCut}

def here (position : Int) (cuts : List WireCut) : List WireCut :=
  cuts.filter fun cut => cut.position = position

/-- The same cuts in another order, in which cuts at one position follow each other as before. -/
structure Reorders (cuts other : List WireCut) : Prop where
  perm : other.Perm cuts
  ties : ∀ position, here position other = here position cuts

structure StablySorts (cuts ordered : List WireCut) : Prop extends Reorders cuts ordered where
  increasing : Ordered ordered

theorem mem_here {position : Int} {cut : WireCut} :
    cut ∈ here position cuts ↔ cut ∈ cuts ∧ cut.position = position := by
  rw [here, List.mem_filter, decide_eq_true_eq]

theorem here_cons_self (cut : WireCut) (cuts : List WireCut) :
    here cut.position (cut :: cuts) = cut :: here cut.position cuts :=
  List.filter_cons_of_pos (decide_eq_true rfl)

theorem here_cons_of_ne {position : Int} {cut : WireCut} (apart : cut.position ≠ position) :
    here position (cut :: cuts) = here position cuts :=
  List.filter_cons_of_neg (by simpa using apart)

theorem mem_of_ties (ties : ∀ position, here position cuts = here position other) {cut : WireCut}
    (member : cut ∈ cuts) : cut ∈ other := by
  have found : cut ∈ here cut.position cuts := mem_here.mpr ⟨member, rfl⟩
  rw [ties] at found
  exact (mem_here.mp found).1

theorem Ordered.head_le {cut first : WireCut} (increasing : Ordered (first :: cuts))
    (member : cut ∈ first :: cuts) : first.position ≤ cut.position := by
  rcases List.mem_cons.mp member with rfl | later
  · exact le_rfl
  · exact (List.pairwise_cons.mp increasing).1 cut later

theorem Ordered.eq_of_ties (increasing : Ordered cuts) (increasing' : Ordered other)
    (ties : ∀ position, here position cuts = here position other) : cuts = other := by
  -- The first cuts have the least position, so they are the first of what the lists have there.
  induction cuts generalizing other with
  | nil =>
      cases other with
      | nil => rfl
      | cons first rest =>
          cases mem_of_ties (fun position => (ties position).symm) List.mem_cons_self
  | cons cut cuts ih =>
      cases other with
      | nil => cases mem_of_ties ties List.mem_cons_self
      | cons first rest =>
          have low := increasing.head_le
            (mem_of_ties (fun position => (ties position).symm) List.mem_cons_self)
          have high := increasing'.head_le (mem_of_ties ties List.mem_cons_self)
          have level : first.position = cut.position := le_antisymm high low
          have begun := ties cut.position
          rw [here_cons_self, ← level, here_cons_self] at begun
          rcases List.cons.inj begun with ⟨rfl, -⟩
          refine congrArg (cut :: ·) (ih increasing.of_cons increasing'.of_cons ?_)
          intro position
          have tied := ties position
          by_cases equal : cut.position = position
          · subst equal
            rw [here_cons_self, here_cons_self] at tied
            exact (List.cons.inj tied).2
          · rw [here_cons_of_ne equal, here_cons_of_ne equal] at tied
            exact tied

theorem sorted_ties (cuts : List WireCut) (position : Int) :
    here position (sorted cuts) = here position cuts := by
  have level : (here position cuts).Pairwise
      fun a b => decide (a.position ≤ b.position) = true := by
    apply List.pairwise_of_forall_mem_list
    intro a first b second
    rw [(mem_here.mp first).2, (mem_here.mp second).2]
    exact decide_eq_true le_rfl
  have kept : (here position cuts).Sublist (sorted cuts) :=
    List.sublist_mergeSort position_le_trans position_le_total level List.filter_sublist
  have again : here position (here position cuts) = here position cuts :=
    List.filter_eq_self.mpr fun cut member => decide_eq_true (mem_here.mp member).2
  have within : (here position cuts).Sublist (here position (sorted cuts)) := by
    rw [← again]
    exact kept.filter _
  have lengths : (here position (sorted cuts)).length = (here position cuts).length :=
    ((List.mergeSort_perm cuts _).filter _).length_eq
  exact (within.eq_of_length lengths.symm).symm

theorem sorted_stablySorts (cuts : List WireCut) : StablySorts cuts (sorted cuts) where
  perm := List.mergeSort_perm cuts _
  ties := sorted_ties cuts
  increasing := sorted_increasing cuts

theorem Reorders.sorted_eq (reorders : Reorders cuts other) : sorted other = sorted cuts := by
  apply Ordered.eq_of_ties (sorted_increasing other) (sorted_increasing cuts)
  intro position
  rw [sorted_ties, sorted_ties, reorders.ties]

end WireCut

namespace Circuit

variable {c : Circuit} {cuts other : List WireCut}

theorem slicesFrom_length (c : Circuit) (start : Nat) (stops : List Nat) :
    (c.slicesFrom start stops).length = stops.length + 1 := by
  induction stops generalizing start with
  | nil => rfl
  | cons stop rest ih => rw [slicesFrom, List.length_cons, ih, List.length_cons]

theorem slice_length (start : Nat) {stop : Nat} (bound : stop ≤ c.data.length) :
    (c.slice start stop).data.length = stop - start := by
  show ((c.data.take stop).drop start).length = stop - start
  rw [List.length_drop, List.length_take, Nat.min_eq_left bound]

def totalLength (parts : List Circuit) : Nat := (parts.map (·.data.length)).sum

theorem slicesFrom_totalLength {start : Nat} {stops : List Nat}
    (sorted : (start :: stops).Pairwise (· ≤ ·)) (inside : ∀ stop ∈ stops, stop ≤ c.data.length)
    {i stop : Nat} (present : stops[i]? = some stop) :
    start + totalLength ((c.slicesFrom start stops).take (i + 1)) = stop := by
  induction stops generalizing start i with
  | nil => cases present
  | cons next rest ih =>
      rcases List.pairwise_cons.mp sorted with ⟨ahead, tail⟩
      have before := ahead next List.mem_cons_self
      have length := slice_length start (inside next List.mem_cons_self)
      rw [slicesFrom, List.take_succ_cons, totalLength, List.map_cons, List.sum_cons, length]
      cases i with
      | zero =>
          cases present
          rw [List.take_zero, List.map_nil, List.sum_nil]
          omega
      | succ i =>
          have later := ih tail (fun other listed => inside other (List.mem_cons_of_mem next listed))
            present
          rw [totalLength] at later
          omega

/-- One part more than cuts. The parts make up the circuit, those up to each cut reach to its
position, and the qubit of each cut is recorded. -/
structure SlicedAt (c : Circuit) (ordered : List WireCut) (result : CutCircuit) : Prop where
  count : result.subcircuits.length = ordered.length + 1
  whole : result.subcircuits.flatMap Circuit.data = c.data
  frame : ∀ part ∈ result.subcircuits, part.SameFrame c
  stops : ∀ i cut, ordered[i]? = some cut →
    (totalLength (result.subcircuits.take (i + 1)) : Int) = cut.position
  records : result.cuts = ordered.zipIdx.map fun (cut, index) => ⟨index, .integer cut.qubit, .wire⟩

theorem slices_reach (accepted : ∀ cut ∈ cuts, c.Accepts cut) {i : Nat} {cut : WireCut}
    (present : (WireCut.sorted cuts)[i]? = some cut) :
    (totalLength ((c.slicesFrom 0 (slicePositions cuts)).take (i + 1)) : Int) = cut.position := by
  have stops : (slicePositions cuts)[i]? = some cut.position.toNat := by
    rw [slicePositions, List.getElem?_map, present]
    rfl
  have reached :=
    slicesFrom_totalLength (slicePositions_sorted cuts) (slicePositions_le accepted) stops
  have listed : cut ∈ cuts := List.mem_mergeSort.mp (List.mem_of_getElem? present)
  have low := (accepted cut listed).low
  omega

theorem sliceAtCuts_slicedAt (few : cuts.length < 512) (accepted : c.checkCuts cuts = .ok ()) :
    ∃ result, (c.sliceAtCuts cuts).outcome = .ok result ∧
      c.SlicedAt (WireCut.sorted cuts) result := by
  rcases sliceAtCuts_outcome few accepted with ⟨result, returned, slices, records⟩
  rw [checkCuts_eq_ok_iff] at accepted
  refine ⟨result, returned, ?_, ?_, ?_, ?_, records⟩
  · rw [slices, slicesFrom_length, slicePositions, List.length_map]
  · rw [slices]
    exact slices_data accepted
  · rw [slices]
    exact slicesFrom_sameFrame
  · intro i cut present
    rw [slices]
    exact slices_reach accepted present

theorem sliceAtCuts_of_reorders (accepted : c.checkCuts cuts = .ok ())
    (reorders : WireCut.Reorders cuts other) : c.sliceAtCuts other = c.sliceAtCuts cuts := by
  have accepted' : c.checkCuts other = .ok () := by
    rw [checkCuts_eq_ok_iff] at accepted ⊢
    intro cut member
    exact accepted cut (reorders.perm.mem_iff.mp member)
  rw [sliceAtCuts, sliceAtCuts, accepted, accepted', reorders.sorted_eq, reorders.perm.length_eq]

/-- A circuit is sliced at the stably sorted cuts without loss, and every reordering of the cuts
that keeps the order of those at one position gives the same report. -/
theorem sliceAtCuts_stable (c : Circuit) (cuts : List WireCut) (few : cuts.length < 512)
    (accepted : c.checkCuts cuts = .ok ()) :
    ∃ ordered result, WireCut.StablySorts cuts ordered ∧
      (c.sliceAtCuts cuts).outcome = .ok result ∧ c.SlicedAt ordered result ∧
        ∀ other, WireCut.Reorders cuts other → c.sliceAtCuts other = c.sliceAtCuts cuts := by
  rcases sliceAtCuts_slicedAt few accepted with ⟨result, returned, sliced⟩
  refine ⟨WireCut.sorted cuts, result, WireCut.sorted_stablySorts cuts, returned, sliced, ?_⟩
  intro other reorders
  exact sliceAtCuts_of_reorders accepted reorders

theorem ladder_slices_stably :
    ladder.checkCuts [⟨2, 2⟩, ⟨1, 1⟩, ⟨2, 1⟩, ⟨2, 2⟩] = .ok () ∧
    (∃ result, (ladder.sliceAtCuts [⟨2, 2⟩, ⟨1, 1⟩, ⟨2, 1⟩, ⟨2, 2⟩]).outcome = .ok result ∧
      ladder.SlicedAt [⟨1, 1⟩, ⟨2, 2⟩, ⟨2, 1⟩, ⟨2, 2⟩] result) ∧
    ladder.sliceAtCuts [⟨1, 1⟩, ⟨2, 2⟩, ⟨2, 1⟩, ⟨2, 2⟩] =
      ladder.sliceAtCuts [⟨2, 2⟩, ⟨1, 1⟩, ⟨2, 1⟩, ⟨2, 2⟩] := by
  have accepted : ladder.checkCuts [⟨2, 2⟩, ⟨1, 1⟩, ⟨2, 1⟩, ⟨2, 2⟩] = .ok () := by decide
  have reorders : WireCut.Reorders [⟨2, 2⟩, ⟨1, 1⟩, ⟨2, 1⟩, ⟨2, 2⟩]
      [⟨1, 1⟩, ⟨2, 2⟩, ⟨2, 1⟩, ⟨2, 2⟩] := by
    refine ⟨by decide, ?_⟩
    intro position
    by_cases early : (1 : Int) = position
    · subst early
      rfl
    · simp [WireCut.here, List.filter_cons, early]
  have increasing : WireCut.Ordered [⟨1, 1⟩, ⟨2, 2⟩, ⟨2, 1⟩, ⟨2, 2⟩] := by
    simp [WireCut.Ordered]
  rcases sliceAtCuts_stable ladder _ (by decide) accepted with
    ⟨ordered, result, sorts, returned, sliced, same⟩
  have listed : ordered = [⟨1, 1⟩, ⟨2, 2⟩, ⟨2, 1⟩, ⟨2, 2⟩] := by
    apply sorts.increasing.eq_of_ties increasing
    intro position
    rw [sorts.ties, reorders.ties]
  rw [listed] at sliced
  exact ⟨accepted, ⟨result, returned, sliced⟩, same _ reorders⟩

end Circuit
end QuasiCut
