import Mathlib
import QuasiCut.Proofs.SliceBudget

/-! Clusters in the order of their first instructions. The widths of a circuit's fragments are those of
its clusters in this order, so they are the same for two circuits whose uses correspond. -/

namespace QuasiCut

namespace Circuit

variable {c : Circuit} {cuts : List WireCut}

theorem Cluster.first_injective :
    Function.Injective (Cluster.first : c.Cluster cuts → Nat) := by
  intro f g same
  rcases f.exists_first with ⟨u, start, rfl⟩
  rcases g.exists_first with ⟨v, start', rfl⟩
  exact cluster_eq_of_position (start.trans (same.trans start'.symm))

/-- One cluster comes before another if its first instruction does. -/
noncomputable instance : LinearOrder (c.Cluster cuts) :=
  LinearOrder.lift' Cluster.first Cluster.first_injective

theorem Cluster.lt_iff {f g : c.Cluster cuts} : f < g ↔ f.first < g.first := Iff.rfl

instance : Finite (c.Cluster cuts) := Quotient.finite _

noncomputable instance : Fintype (c.Cluster cuts) := Fintype.ofFinite _

noncomputable def clusters (c : Circuit) (cuts : List WireCut) : List (c.Cluster cuts) :=
  Finset.univ.sort

theorem fragmentWidths_eq_map (c : Circuit) (cuts : List WireCut) :
    c.fragmentWidths cuts = (c.clusters cuts).map Cluster.width := by
  rcases c.exists_tracks cuts with ⟨last, ts, fragments, tracked⟩
  choose cluster holds using fun (t : c.Track cuts) (member : t ∈ ts) => tracked.exists_holds member
  have increasing : (ts.pmap cluster fun _ member => member).Pairwise (· < ·) := by
    rw [List.pairwise_pmap]
    exact tracked.ordered.imp fun before member member' =>
      before.first_lt (holds _ member) (holds _ member')
  have complete : (ts.pmap cluster fun _ member => member).toFinset = Finset.univ := by
    rw [Finset.eq_univ_iff_forall]
    intro f
    rcases tracked.exists_track f with ⟨t, member, stands⟩
    rcases List.exists_mem_of_ne_nil _ (tracked.sound t member).nonempty with ⟨s, held⟩
    have same : cluster t member = f :=
      (((holds t member).segments s).mp held).symm.trans ((stands.segments s).mp held)
    exact List.mem_toFinset.mpr (List.mem_pmap.mpr ⟨t, member, same⟩)
  have sorted : c.clusters cuts = ts.pmap cluster fun _ member => member := by
    rw [clusters, ← complete]
    exact (List.toFinset_sort _ increasing.nodup).mpr (increasing.imp le_of_lt)
  rw [sorted, fragmentWidths, ← fragments, List.map_map, List.map_pmap]
  refine (List.pmap_eq_map (fun t member => member)).symm.trans ?_
  exact List.pmap_congr_left ts fun t _ member _ => (holds t member).width

theorem fragmentWidths_multiset (c : Circuit) (cuts : List WireCut) :
    (c.fragmentWidths cuts : Multiset Nat) =
      (Finset.univ : Finset (c.Cluster cuts)).val.map Cluster.width := by
  rw [fragmentWidths_eq_map, ← Multiset.map_coe, clusters, Finset.sort_eq]

theorem eq_of_use_cluster {α : Sort*} (value : c.Use → α)
    (segments : ∀ u v : c.Use, u.segment cuts = v.segment cuts → value u = value v)
    (positions : ∀ u v : c.Use, u.position = v.position → value u = value v)
    {u v : c.Use} (same : u.cluster cuts = v.cluster cuts) : value u = value v :=
  eq_of_cluster_eq (Quotient.lift value fun u v alike => segments u v (segment_eq_iff.mpr alike))
    positions same

namespace Embedding

variable {part : Circuit} {inner : List WireCut} (e : Embedding part inner c cuts)
  (onto : Function.Surjective e.place)
  (ordered : ∀ u v, u.position < v.position → (e.place u).position < (e.place v).position)

include onto ordered

noncomputable def inverse : Embedding c cuts part inner where
  place := Function.surjInv onto
  together u v position := by
    have left := Function.surjInv_eq onto u
    have right := Function.surjInv_eq onto v
    by_contra apart
    rcases Nat.lt_or_gt_of_ne apart with before | after
    · have moved := ordered _ _ before
      rw [left, right] at moved
      omega
    · have moved := ordered _ _ after
      rw [left, right] at moved
      omega
  segments u v := by
    rw [e.segments, Function.surjInv_eq onto, Function.surjInv_eq onto]

theorem inverse_cluster (f : part.Cluster inner) :
    (e.inverse onto ordered).cluster (e.cluster f) = f := by
  rcases f.exists_use with ⟨u, rfl⟩
  have same : ((e.inverse onto ordered).place (e.place u)).segment inner = u.segment inner := by
    rw [e.segments]
    exact congrArg (Use.segment cuts) (Function.surjInv_eq onto (e.place u))
  exact congrArg Segment.cluster same

theorem width_cluster (f : part.Cluster inner) : (e.cluster f).width = f.width := by
  apply le_antisymm _ (e.width_le_cluster f)
  calc
    (e.cluster f).width ≤ ((e.inverse onto ordered).cluster (e.cluster f)).width :=
      (e.inverse onto ordered).width_le_cluster (e.cluster f)
    _ = f.width := by rw [e.inverse_cluster onto ordered]

theorem cluster_injective : Function.Injective e.cluster :=
  Function.LeftInverse.injective (e.inverse_cluster onto ordered)

omit ordered in
theorem cluster_surjective : Function.Surjective e.cluster := by
  intro g
  rcases g.exists_use with ⟨v, rfl⟩
  rcases onto v with ⟨u, rfl⟩
  exact ⟨u.cluster inner, rfl⟩

theorem cluster_strictMono : StrictMono e.cluster := by
  intro f g before
  rcases f.exists_first with ⟨u, start, rfl⟩
  rcases (e.cluster g).exists_first with ⟨w, start', inside⟩
  rcases onto w with ⟨v, rfl⟩
  have held : v.cluster inner = g := e.cluster_injective onto ordered inside
  have earlier : u.position < v.position := by
    calc
      u.position = (u.cluster inner).first := start
      _ < g.first := before
      _ ≤ v.position := held ▸ Cluster.first_le v
  rw [Cluster.lt_iff]
  calc
    (e.cluster (u.cluster inner)).first ≤ (e.place u).position := Cluster.first_le (e.place u)
    _ < (e.place v).position := ordered u v earlier
    _ = (e.cluster g).first := start'

/-- Circuits whose uses correspond, in order, have fragments of the same widths in the same order. -/
theorem fragmentWidths_eq : part.fragmentWidths inner = c.fragmentWidths cuts := by
  let image : part.Cluster inner ↪ c.Cluster cuts := ⟨e.cluster, e.cluster_injective onto ordered⟩
  have sorted : (part.clusters inner).map e.cluster = c.clusters cuts := by
    have moved := StrictMonoOn.map_finsetSort image Finset.univ
      ((e.cluster_strictMono onto ordered).strictMonoOn _)
    have all : Finset.univ.map image = Finset.univ :=
      Finset.map_univ_of_surjective (e.cluster_surjective onto)
    rw [all] at moved
    exact moved
  rw [fragmentWidths_eq_map, fragmentWidths_eq_map, ← sorted, List.map_map]
  exact List.map_congr_left fun f _ => (e.width_cluster onto ordered f).symm

end Embedding

end Circuit
end QuasiCut
