import Mathlib
import QuasiCut.GateCut
import QuasiCut.Proofs.StableSlices
import QuasiCut.WireCut.Split

/-! Numbers that are given as integers. What is computed for numbers of any kind is then what is
computed for the integers themselves. -/

namespace QuasiCut

theorem Report.liftM_bind_self {β : Type} (check : Except Fault Unit) (next : Unit → Report β) :
    ((liftM check : Report Unit) >>= fun _ => (liftM check : Report Unit) >>= next) =
      (liftM check : Report Unit) >>= next := by
  cases check <;> rfl

theorem zipWith_zipIdx {κ β γ : Type} {record : κ × Nat → β} {given : κ → γ} {update : β → γ → β}
    (unchanged : ∀ item index, update (record (item, index)) (given item) = record (item, index))
    (items : List κ) (start : Nat) :
    List.zipWith update ((items.zipIdx start).map record) (items.map given) =
      (items.zipIdx start).map record := by
  induction items generalizing start with
  | nil => rfl
  | cons item rest ih => simp [unchanged, ih]

theorem samplingOverheadOf_integers (wires gates : Int) :
    samplingOverheadOf wires gates = samplingOverhead wires gates := by
  by_cases negative : wires < 0 ∨ gates < 0
  · simp only [samplingOverheadOf, samplingOverhead, Number.below_integer, decide_eq_true_eq,
      if_pos negative]
    rfl
  · simp only [samplingOverheadOf, Number.below_integer, decide_eq_true_eq, if_neg negative]
    rfl

theorem CutSite.cuts_sites (cuts : List WireCut) : CutSite.cuts (cuts.map WireCut.site) = cuts := by
  rw [CutSite.cuts, List.filterMap_map]
  exact List.filterMap_some

section Insertion

variable {ι κ α : Type}

def LocalOp.relabel (label : ι → κ) (op : LocalOp ι) : LocalOp κ := ⟨op.name, label op.qubit⟩

def Insertion.relabel (label : ι → κ) (inserted : Insertion ι α) : Insertion κ α where
  before := inserted.before.map (LocalOp.relabel label)
  after := inserted.after.map (LocalOp.relabel label)
  coeff := inserted.coeff

theorem WireCut.operations_map (label : ι → κ) (side : Nat) (qubits : List ι)
    (chosen : List (Basis α × Nat)) :
    operations side ((qubits.map label).zip chosen) =
      (operations side (qubits.zip chosen)).map (LocalOp.relabel label) := by
  rw [List.zip_map_left, operations, operations, List.flatMap_map, List.map_flatMap]
  simp only [List.map_map]
  rfl

variable [One α] [Mul α] [Coefficient α]

theorem WireCut.insertionOn_map (label : ι → κ) (qubits : List ι) (index : Int) :
    (insertionOn (qubits.map label) index : Except Fault (Insertion κ α)) =
      (insertionOn qubits index).map (Insertion.relabel label) := by
  have same : (bases (qubits.map label) : List (Basis α)) = bases qubits := by
    rw [bases, bases, List.map_map]
    rfl
  simp only [insertionOn, same, operations_map]
  cases Configuration.choices (bases qubits : List (Basis α)) index with
  | error fault => rfl
  | ok chosen =>
      simp only [bind, Except.bind]
      cases Configuration.weight (bases qubits : List (Basis α)) (chosen.map Number.ofNat) <;> rfl

theorem WireCut.insertionOf_sites (cuts : List WireCut) (index : Int) :
    (insertionOf ((cuts.map site).map CutSite.qubit) index : Except Fault (Insertion Number α)) =
      (insertion cuts index).map (Insertion.relabel Number.integer) := by
  have qubits : (cuts.map site).map CutSite.qubit = (cuts.map qubit).map Number.integer := by
    rw [List.map_map, List.map_map]
    rfl
  rw [qubits]
  exact insertionOn_map Number.integer (cuts.map qubit) index

end Insertion

namespace Circuit

variable {α : Type} [One α] [Mul α] [Coefficient α]

theorem cutGatesAt_integers (c : Circuit) (gates : List Int) :
    (c.cutGatesAt (gates.map .integer) : Report (GateCutting α)) = c.cutGates gates := by
  have places : (gates.map Number.integer).mapM
      (fun gate => (liftM (gate.toIndex .gateNotWhole) : Report Int)) = pure gates := by
    rw [List.mapM_map]
    exact List.mapM_pure.trans (congrArg pure (List.map_id gates))
  rw [cutGatesAt, places]
  exact Report.liftM_bind_self _ _

theorem cutWiresAt_sites (c : Circuit) (cuts : List WireCut) (workers : Option Number) :
    (c.cutWiresAt (cuts.map WireCut.site) workers : Report (List (SplitPair α))) =
      c.cutWires cuts workers := by
  have placed : (cuts.map WireCut.site).mapM CutSite.truncated = .ok cuts := by
    rw [List.mapM_map]
    exact List.mapM_pure.trans (congrArg pure (List.map_id cuts))
  have first : ((cuts.map WireCut.site).map CutSite.position).headD (.integer c.data.length) =
      .integer (WireCut.splitPosition cuts c.data.length) := by
    cases cuts <;> rfl
  rw [cutWiresAt, placed, first]
  exact Report.liftM_bind_self _ _

theorem sliceAtSites_sites (c : Circuit) (cuts : List WireCut) :
    c.sliceAtSites (cuts.map WireCut.site) = c.sliceAtCuts cuts := by
  have positions : (cuts.map WireCut.site).mapM
      (fun site => (liftM (site.position.toIndex .positionNotWhole) : Report Int)) =
        pure (cuts.map WireCut.position) := by
    rw [List.mapM_map]
    exact List.mapM_pure
  have ordered : ((cuts.map WireCut.position).zip (cuts.map WireCut.site)).mergeSort
      (fun a b => decide (a.1 ≤ b.1)) =
        (WireCut.sorted cuts).map fun cut => (cut.position, cut.site) := by
    rw [List.zip_map']
    symm
    apply List.map_mergeSort
    intro a _ b _
    rfl
  have places : ((WireCut.sorted cuts).map fun cut => (cut.position, cut.site)).map Prod.snd =
      (WireCut.sorted cuts).map WireCut.site := by
    rw [List.map_map]
    rfl
  rw [sliceAtSites, positions, pure_bind, ordered]
  dsimp only
  rw [places, CutSite.cuts_sites]
  cases accepted : c.checkCuts cuts with
  | error fault =>
      rw [sliceAtCuts, sliceAtCuts, accepted, ← checkCuts, accepted]
      rfl
  | ok _ =>
      have reorders := (WireCut.sorted_stablySorts cuts).toReorders
      rw [sliceAtCuts_of_reorders accepted reorders, sliceAtCuts, accepted, ← checkCuts, accepted]
      cases samplingOverhead cuts.length 0 with
      | error fault => rfl
      | ok overhead =>
          simp only [Report.liftM_ok, pure_bind, bind_assoc]
          rw [zipWith_zipIdx]
          intro cut index
          rfl

end Circuit
end QuasiCut
