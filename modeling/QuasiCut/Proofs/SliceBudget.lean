import Mathlib
import QuasiCut.WireCut.Slice
import QuasiCut.Proofs.AcceptedCuts
import QuasiCut.Proofs.FragmentWidths
import QuasiCut.Proofs.Overhead

/-! Slices are no wider than fragments. No cut lies inside a slice, so the segments of the slice
are segments of the circuit, and what the slice joins the circuit joins too. -/

namespace QuasiCut

namespace WireCut

theorem position_le_trans (a b c : WireCut) (first : decide (a.position ≤ b.position) = true)
    (second : decide (b.position ≤ c.position) = true) :
    decide (a.position ≤ c.position) = true := by
  rw [decide_eq_true_eq] at first second ⊢
  exact first.trans second

theorem position_le_total (a b : WireCut) :
    (decide (a.position ≤ b.position) || decide (b.position ≤ a.position)) = true := by
  rw [Bool.or_eq_true, decide_eq_true_eq, decide_eq_true_eq]
  exact le_total a.position b.position

theorem sorted_increasing (cuts : List WireCut) :
    (sorted cuts).Pairwise fun a b => a.position ≤ b.position :=
  (List.pairwise_mergeSort position_le_trans position_le_total cuts).imp of_decide_eq_true

end WireCut

namespace Circuit

variable {c : Circuit} {cuts : List WireCut}

/-- Uses of a part as uses of the whole. What an instruction uses stays with one instruction, and
two uses share a segment of the part exactly if they share a segment of the whole. -/
structure Embedding (part : Circuit) (inner : List WireCut) (c : Circuit)
    (cuts : List WireCut) where
  place : part.Use → c.Use
  together : ∀ u v, u.position = v.position → (place u).position = (place v).position
  segments : ∀ u v, u.segment inner = v.segment inner ↔
    (place u).segment cuts = (place v).segment cuts

namespace Embedding

variable {part : Circuit} {inner : List WireCut} (e : Embedding part inner c cuts)

include e

def segment : part.Segment inner → c.Segment cuts :=
  Quotient.lift (fun u => (e.place u).segment cuts)
    fun u v same => (e.segments u v).mp (segment_eq_iff.mpr same)

theorem segment_injective : Function.Injective e.segment := by
  intro s t same
  rcases exists_use s with ⟨u, rfl⟩
  rcases exists_use t with ⟨v, rfl⟩
  exact (e.segments u v).mpr same

theorem cluster_segment {s t : part.Segment inner} (same : s.cluster = t.cluster) :
    (e.segment s).cluster = (e.segment t).cluster := by
  apply eq_of_cluster_eq (fun s => (e.segment s).cluster) _ same
  intro u v position
  exact cluster_eq_of_position (e.together u v position)

def cluster : part.Cluster inner → c.Cluster cuts :=
  Quotient.lift (fun s => (e.segment s).cluster) fun _ _ same =>
    e.cluster_segment (Quotient.sound same)

theorem width_le_cluster (f : part.Cluster inner) : f.width ≤ (e.cluster f).width := by
  apply Nat.card_le_card_of_injective
    (fun t : {t : part.Segment inner // t.cluster = f} =>
      (⟨e.segment t.1, congrArg e.cluster t.2⟩ : {s : c.Segment cuts // s.cluster = e.cluster f}))
  intro t t' same
  exact Subtype.ext (e.segment_injective (congrArg Subtype.val same))

theorem cutsFit {budget : Number} (fit : c.cutsFit cuts budget = true) :
    part.cutsFit inner budget = true := by
  rw [cutsFit_iff] at fit ⊢
  intro f
  exact Number.atLeast_of_le (Int.ofNat_le.mpr (e.width_le_cluster f)) (fit (e.cluster f))

end Embedding

section Slice

variable {first last : Nat}

theorem slice_data {position : Nat} {i : Instruction}
    (present : (c.slice first last).data[position]? = some i) :
    c.data[first + position]? = some i ∧ first + position < last := by
  have found : ((c.data.take last).drop first)[position]? = some i := present
  rw [List.getElem?_drop, List.getElem?_take] at found
  split at found
  · next inside => exact ⟨found, inside⟩
  · cases found

theorem Use.slice_acts (u : (c.slice first last).Use) :
    ∃ i, c.data[first + u.position]? = some i ∧ i.isBarrier = false ∧ u.qubit ∈ i.qubits := by
  rcases u.acts with ⟨i, present, acting⟩
  exact ⟨i, (slice_data present).1, acting⟩

theorem Use.slice_before (u : (c.slice first last).Use) : first + u.position < last := by
  rcases u.acts with ⟨i, present, -⟩
  exact (slice_data present).2

def Use.ofSlice (u : (c.slice first last).Use) : c.Use :=
  ⟨first + u.position, u.qubit, u.slice_acts⟩

theorem segment_uncut {u v : c.Use} : u.segment [] = v.segment [] ↔ u.qubit = v.qubit := by
  rw [segment_eq_iff, SameSegment]
  refine and_iff_left ?_
  intro severed
  rcases severed with ⟨cut, member, -⟩
  cases member

theorem segment_ofSlice
    (uncut : ∀ cut ∈ cuts, cut.position ≤ first ∨ (last : Int) ≤ cut.position)
    (u v : (c.slice first last).Use) :
    u.ofSlice.segment cuts = v.ofSlice.segment cuts ↔ u.qubit = v.qubit := by
  rw [segment_eq_iff, SameSegment]
  refine and_iff_left ?_
  intro severed
  rcases severed with ⟨cut, member, -, after, upto⟩
  have left := u.slice_before
  have right := v.slice_before
  rcases uncut cut member with early | late
  · simp only [Use.ofSlice, Nat.cast_min, Nat.cast_add] at after
    omega
  · simp only [Use.ofSlice, Nat.cast_max, Nat.cast_add] at upto
    omega

theorem slice_embeds
    (uncut : ∀ cut ∈ cuts, cut.position ≤ first ∨ (last : Int) ≤ cut.position) :
    Nonempty (Embedding (c.slice first last) [] c cuts) := by
  refine ⟨⟨Use.ofSlice, ?_, ?_⟩⟩
  · intro u v position
    exact congrArg (first + ·) position
  · intro u v
    rw [segment_uncut, segment_ofSlice uncut]

end Slice

section Slices

variable {start : Nat} {stops : List Nat}

theorem slicesFrom_uncut (sorted : (start :: stops).Pairwise (· ≤ ·)) {part : Circuit}
    (member : part ∈ c.slicesFrom start stops) :
    ∃ first last, part = c.slice first last ∧ start ≤ first ∧
      ∀ stop ∈ stops, stop ≤ first ∨ last ≤ stop := by
  induction stops generalizing start with
  | nil =>
      rw [slicesFrom, List.mem_singleton] at member
      exact ⟨start, c.data.length, member, le_rfl, fun stop none => nomatch none⟩
  | cons stop rest ih =>
      rcases List.pairwise_cons.mp sorted with ⟨ahead, tail⟩
      rcases List.mem_cons.mp member with here | later
      · refine ⟨start, stop, here, le_rfl, ?_⟩
        intro other listed
        rcases List.mem_cons.mp listed with rfl | listed
        · exact Or.inr le_rfl
        · exact Or.inr ((List.pairwise_cons.mp tail).1 other listed)
      · rcases ih tail later with ⟨first, last, same, after, outside⟩
        refine ⟨first, last, same, (ahead stop List.mem_cons_self).trans after, ?_⟩
        intro other listed
        rcases List.mem_cons.mp listed with rfl | listed
        · exact Or.inl after
        · exact outside other listed

theorem slicesFrom_data (sorted : (start :: stops).Pairwise (· ≤ ·))
    (inside : ∀ stop ∈ stops, stop ≤ c.data.length) :
    (c.slicesFrom start stops).flatMap Circuit.data = c.data.drop start := by
  induction stops generalizing start with
  | nil =>
      have whole : (c.slice start c.data.length).data = c.data.drop start := by
        show (c.data.take c.data.length).drop start = c.data.drop start
        rw [List.take_length]
      rw [slicesFrom, List.flatMap_singleton, whole]
  | cons stop rest ih =>
      rcases List.pairwise_cons.mp sorted with ⟨ahead, tail⟩
      have before := ahead stop List.mem_cons_self
      have bound := inside stop List.mem_cons_self
      have later := ih tail fun other listed => inside other (List.mem_cons_of_mem stop listed)
      have reached : start ≤ (c.data.take stop).length := by
        rw [List.length_take]
        omega
      calc
        (c.slicesFrom start (stop :: rest)).flatMap Circuit.data =
            (c.data.take stop).drop start ++ c.data.drop stop := by
          rw [slicesFrom, List.flatMap_cons, later]
          rfl
        _ = (c.data.take stop ++ c.data.drop stop).drop start :=
          (List.drop_append_of_le_length reached).symm
        _ = c.data.drop start := by rw [List.take_append_drop]

end Slices

def slicePositions (cuts : List WireCut) : List Nat :=
  (WireCut.sorted cuts).map (·.position.toNat)

theorem slicePositions_sorted (cuts : List WireCut) :
    (0 :: slicePositions cuts).Pairwise (· ≤ ·) := by
  refine List.pairwise_cons.mpr ⟨fun stop _ => Nat.zero_le stop, ?_⟩
  rw [slicePositions, List.pairwise_map]
  exact (WireCut.sorted_increasing cuts).imp Int.toNat_le_toNat

theorem mem_slicePositions {stop : Nat} :
    stop ∈ slicePositions cuts ↔ ∃ cut ∈ cuts, cut.position.toNat = stop := by
  rw [slicePositions, List.mem_map]
  simp only [WireCut.sorted, List.mem_mergeSort]

theorem sliceAtCuts_outcome (short : cuts.length < 512) (accepted : c.checkCuts cuts = .ok ()) :
    ∃ result, (c.sliceAtCuts cuts).outcome = .ok result ∧
      result.subcircuits = c.slicesFrom 0 (slicePositions cuts) ∧
        result.cuts = (WireCut.sorted cuts).zipIdx.map fun (cut, index) =>
          ⟨index, cut.qubit, .wire⟩ := by
  have priced := (samplingOverhead_wires cuts.length).mpr short
  cases cost : samplingOverhead cuts.length 0 with
  | error fault =>
      rw [cost] at priced
      cases priced
  | ok overhead =>
      simp only [sliceAtCuts, accepted, cost, Report.liftM_ok, pure_bind,
        Report.outcome_emit_bind, Report.outcome_pure]
      exact ⟨_, rfl, rfl, rfl⟩

theorem sliceAtCuts_overhead {result : CutCircuit}
    (returned : (c.sliceAtCuts cuts).outcome = .ok result) :
    samplingOverhead cuts.length 0 = .ok result.overhead := by
  rcases Report.outcome_bind_eq_ok returned with ⟨_, -, sliced⟩
  rcases Report.outcome_bind_eq_ok sliced with ⟨_, -, emitted⟩
  rcases Report.outcome_bind_eq_ok emitted with ⟨overhead, priced, final⟩
  cases final
  exact priced

theorem sliceAtCuts_value_fault_iff (short : cuts.length < 512) :
    (∃ fault, (c.sliceAtCuts cuts).outcome = .error fault ∧ fault.kind = .value) ↔
      ∃ cut ∈ cuts, ¬c.Accepts cut := by
  constructor
  · intro failed
    rcases failed with ⟨fault, refused, -⟩
    by_contra accepted
    push Not at accepted
    rcases sliceAtCuts_outcome short (checkCuts_eq_ok_iff.mpr accepted) with ⟨result, returned, -⟩
    rw [returned] at refused
    cases refused
  · intro found
    rcases found with ⟨cut, member, unaccepted⟩
    cases checked : c.checkCuts cuts with
    | ok accepted => exact absurd (checkCuts_eq_ok_iff.mp checked cut member) unaccepted
    | error fault =>
        refine ⟨fault, ?_, checkSitesFrom_fault_kind checked⟩
        rw [sliceAtCuts, checked]
        rfl

theorem slices_fit (accepted : ∀ cut ∈ cuts, c.Accepts cut) {budget : Number}
    (fit : c.cutsFit cuts budget = true) {part : Circuit}
    (member : part ∈ c.slicesFrom 0 (slicePositions cuts)) : part.cutsFit [] budget = true := by
  rcases slicesFrom_uncut (slicePositions_sorted cuts) member with ⟨first, last, rfl, -, outside⟩
  have uncut : ∀ cut ∈ cuts, cut.position ≤ first ∨ (last : Int) ≤ cut.position := by
    intro cut listed
    have low := (accepted cut listed).low
    have apart := outside cut.position.toNat (mem_slicePositions.mpr ⟨cut, listed, rfl⟩)
    omega
  rcases slice_embeds uncut with ⟨embedding⟩
  exact embedding.cutsFit fit

theorem slicePositions_le (accepted : ∀ cut ∈ cuts, c.Accepts cut) :
    ∀ stop ∈ slicePositions cuts, stop ≤ c.data.length := by
  intro stop member
  rcases mem_slicePositions.mp member with ⟨cut, listed, rfl⟩
  have high := (accepted cut listed).high
  omega

theorem slices_data (accepted : ∀ cut ∈ cuts, c.Accepts cut) :
    (c.slicesFrom 0 (slicePositions cuts)).flatMap Circuit.data = c.data := by
  rw [slicesFrom_data (slicePositions_sorted cuts) (slicePositions_le accepted), List.drop_zero]

/-- The slices make up the circuit, and each of them fits the budget. -/
def SlicesWithin (c : Circuit) (cuts : List WireCut) (budget : Number) : Prop :=
  ∃ result, (c.sliceAtCuts cuts).outcome = .ok result ∧
    result.subcircuits.flatMap Circuit.data = c.data ∧
      ∀ part ∈ result.subcircuits, part.cutsFit [] budget = true

theorem slicesWithin_of_fit (short : cuts.length < 512) (accepted : c.checkCuts cuts = .ok ())
    {budget : Number} (fit : c.cutsFit cuts budget = true) : c.SlicesWithin cuts budget := by
  rcases sliceAtCuts_outcome short accepted with ⟨result, returned, slices, -⟩
  rw [checkCuts_eq_ok_iff] at accepted
  refine ⟨result, returned, ?_, ?_⟩
  · rw [slices]
    exact slices_data accepted
  · intro part member
    rw [slices] at member
    exact slices_fit accepted fit member

theorem plan_outcome {device : Device} {plan : Plan} (returned : (device.plan c).outcome = .ok plan) :
    plan.cuts.length < 512 ∧ c.checkCuts plan.cuts = .ok () ∧
      plan.fits = c.cutsFit plan.cuts device.width := by
  rcases Report.outcome_bind_eq_ok returned with ⟨cuts, found, rest⟩
  rcases Report.outcome_bind_eq_ok rest with ⟨overhead, priced, final⟩
  cases final
  refine ⟨(samplingOverhead_wires cuts.length).mp ?_, findCuts_accepted found, rfl⟩
  have paid : samplingOverhead cuts.length 0 = .ok overhead := priced
  rw [paid]
  rfl

/-- A fitting list of cuts slices the circuit into parts that fit uncut, and so do planned cuts. -/
theorem sliceAtCuts_within_budget (c : Circuit) :
    (∀ (cuts : List WireCut) (budget : Number), cuts.length < 512 → c.checkCuts cuts = .ok () →
      c.cutsFit cuts budget = true → c.SlicesWithin cuts budget) ∧
    ∀ (device : Device) (plan : Plan), (device.plan c).outcome = .ok plan → plan.fits = true →
      c.SlicesWithin plan.cuts device.width := by
  constructor
  · intro cuts budget short accepted fit
    exact slicesWithin_of_fit short accepted fit
  · intro device plan returned fits
    rcases plan_outcome returned with ⟨short, accepted, fit⟩
    rw [fits] at fit
    exact slicesWithin_of_fit short accepted fit.symm

def ladder : Circuit :=
  (empty [⟨"q", 4⟩] []).withData
    [⟨"cx", [0, 1], [], []⟩, ⟨"cx", [1, 2], [], []⟩, ⟨"cx", [2, 3], [], []⟩] (by decide)

theorem ladder_slices_within :
    (ladder.cutsFit [] (.integer 2) = false ∧
      ladder.checkCuts [⟨2, 2⟩, ⟨1, 1⟩, ⟨2, 2⟩] = .ok () ∧
        ladder.cutsFit [⟨2, 2⟩, ⟨1, 1⟩, ⟨2, 2⟩] (.integer 2) = true ∧
          ladder.SlicesWithin [⟨2, 2⟩, ⟨1, 1⟩, ⟨2, 2⟩] (.integer 2)) ∧
    ∃ plan, (Device.plan ⟨.integer 2⟩ ladder).outcome = .ok plan ∧
      plan.cuts = [⟨1, 1⟩, ⟨2, 2⟩] ∧ plan.fits = true ∧
        ladder.SlicesWithin plan.cuts (.integer 2) := by
  have accepted : ladder.checkCuts [⟨2, 2⟩, ⟨1, 1⟩, ⟨2, 2⟩] = .ok () := by decide
  have fit : ladder.cutsFit [⟨2, 2⟩, ⟨1, 1⟩, ⟨2, 2⟩] (.integer 2) = true := by decide
  refine ⟨⟨by decide, accepted, fit, ?_⟩, _, rfl, rfl, rfl, ?_⟩
  · exact (sliceAtCuts_within_budget ladder).1 _ _ (by decide) accepted fit
  · exact (sliceAtCuts_within_budget ladder).2 ⟨.integer 2⟩ _ rfl rfl

end Circuit
end QuasiCut
