import Mathlib
import QuasiCut.Proofs.FragmentScan

/-! The widths of a circuit's fragments: what one instruction does to the tracked fragments, what a
whole scan does, and that the widths returned are those of the clusters, first instruction first. -/

namespace QuasiCut

section Gather

variable {α : Type} (keep : α → Bool) (item : α) {items : List α}

/-- The items to keep, with one more in the place of the first of the others. -/
def gather (items : List α) : List α :=
  items.takeWhile keep ++ item :: (items.dropWhile keep).filter keep

theorem gather_perm (items : List α) : (gather keep item items).Perm (item :: items.filter keep) := by
  have split : items.filter keep = items.takeWhile keep ++ (items.dropWhile keep).filter keep := by
    have taken : (items.takeWhile keep).filter keep = items.takeWhile keep :=
      List.filter_eq_self.mpr fun x member => List.mem_takeWhile_imp member
    conv_lhs => rw [← List.takeWhile_append_dropWhile (p := keep) (l := items)]
    rw [List.filter_append, taken]
  rw [split, gather]
  exact List.perm_middle

theorem gather_pairwise {before : α → α → Prop} (ordered : items.Pairwise before)
    (left : ∀ x ∈ items.takeWhile keep, (∀ y ∈ items, keep y = false → before x y) → before x item)
    (right : ∀ y ∈ items, keep y = false → ∀ x, before y x → before item x) :
    (gather keep item items).Pairwise before := by
  have whole := ordered
  rw [← List.takeWhile_append_dropWhile (p := keep) (l := items), List.pairwise_append] at whole
  rcases whole with ⟨taken, dropped, across⟩
  have inside : ∀ y ∈ items, keep y = false → y ∈ items.dropWhile keep := by
    intro y member other
    rw [← List.takeWhile_append_dropWhile (p := keep) (l := items)] at member
    cases List.mem_append.mp member with
    | inl early =>
        have kept := List.mem_takeWhile_imp early
        rw [other] at kept
        cases kept
    | inr late => exact late
  have later : ∀ x ∈ (items.dropWhile keep).filter keep, before item x := by
    intro x member
    rcases List.mem_filter.mp member with ⟨late, kept⟩
    have stops := List.head?_dropWhile_not keep items
    have listed := (List.dropWhile_sublist (l := items) keep).subset
    cases rest : items.dropWhile keep with
    | nil =>
        rw [rest] at late
        cases late
    | cons head tail =>
        rw [rest] at late dropped stops listed
        cases List.mem_cons.mp late with
        | inl same =>
            rw [same, stops] at kept
            cases kept
        | inr behind =>
            have first := (List.pairwise_cons.mp dropped).1 x behind
            exact right head (listed List.mem_cons_self) stops x first
  rw [gather, List.pairwise_append, List.pairwise_cons]
  refine ⟨taken, ⟨later, dropped.filter _⟩, ?_⟩
  intro x early y member
  cases List.mem_cons.mp member with
  | inl same =>
      rw [same]
      exact left x early fun z listed other => across x early z (inside z listed other)
  | inr late => exact across x early y (List.mem_filter.mp late).1

end Gather

namespace Circuit

variable {c : Circuit} {cuts : List WireCut} {count : Nat} {ts : List (c.Track cuts)}

def Track.apart (qubits : List Int) (t : c.Track cuts) : Bool := !t.fragment.meets qubits

theorem Track.apart_eq_true {qubits : List Int} {t : c.Track cuts} :
    t.apart qubits = true ↔ t.fragment.meets qubits = false := by
  simp [Track.apart]

theorem Track.apart_eq_false {qubits : List Int} {t : c.Track cuts} :
    t.apart qubits = false ↔ t.fragment.meets qubits = true := by
  simp [Track.apart]

def joinTracks (qubits : List Int) (opened : List (c.Segment cuts)) (ts : List (c.Track cuts)) :
    List (c.Track cuts) :=
  gather (Track.apart qubits) (joinedTrack qubits opened ts) ts

theorem joinTracks_fragments {qubits : List Int} (acts : qubits ≠ [])
    (opened : List (c.Segment cuts)) :
    (joinTracks qubits opened ts).map Track.fragment =
      Fragment.join qubits (ts.map Track.fragment) := by
  have some : qubits.isEmpty = false := by simpa using acts
  rw [joinTracks, gather, Fragment.join, some, List.takeWhile_map, List.dropWhile_map, List.filter_map,
    List.map_append, List.map_cons]
  rfl

theorem joinTracks_perm (qubits : List Int) (opened : List (c.Segment cuts)) :
    (joinTracks qubits opened ts).Perm
      (joinedTrack qubits opened ts :: ts.filter (Track.apart qubits)) :=
  gather_perm _ _ ts

theorem joinTracks_segments (qubits : List Int) (opened : List (c.Segment cuts)) :
    ((joinTracks qubits opened ts).flatMap Track.segments).Perm
      (opened ++ ts.flatMap Track.segments) := by
  have parts : (ts.filter (·.fragment.meets qubits) ++ ts.filter (Track.apart qubits)).Perm ts :=
    List.filter_append_perm _ ts
  refine ((joinTracks_perm qubits opened).flatMap_right _).trans ?_
  rw [List.flatMap_cons, joinedTrack]
  refine (List.perm_append_comm.append_right _).trans ?_
  rw [List.append_assoc, ← List.flatMap_append]
  exact (parts.flatMap_right _).append_left opened

section Join

variable {i : Instruction} (present : c.data[count]? = some i) (acting : i.isBarrier = false)
  (tracked : Tracked count count ts) {opened : List (c.Segment cuts)}
  (opens : ∀ s, s ∈ opened ↔ Opens count ts s)

include tracked opens

theorem before_joinedTrack {qubits : List Int} {t : c.Track cuts} (member : t ∈ ts)
    (left : ∀ t' ∈ ts, t'.fragment.meets qubits = true → t.Before t') :
    t.Before (joinedTrack qubits opened ts) := by
  intro v inside
  rcases (mem_joinedTrack opens).mp inside with ⟨t', listed, meets, held⟩ | ⟨-, fresh⟩
  · exact left t' listed meets v held
  · -- A new segment has no use before this instruction, and the fragment has one.
    have late : count ≤ v.position := by
      by_contra early
      obtain ⟨t', listed, held⟩ := tracked.cover v (by omega)
      exact fresh t' listed held
    have sound := tracked.sound t member
    obtain ⟨s, held⟩ := List.exists_mem_of_ne_nil _ sound.nonempty
    obtain ⟨u, earlier, rfl⟩ := sound.reached s held
    exact ⟨u, held, by omega⟩

omit tracked in
theorem joinedTrack_before {qubits : List Int} {t : c.Track cuts} (member : t ∈ ts)
    (meets : t.fragment.meets qubits = true) {t' : c.Track cuts} (left : t.Before t') :
    (joinedTrack qubits opened ts).Before t' := by
  intro v inside
  rcases left v inside with ⟨u, held, earlier⟩
  exact ⟨u, (mem_joinedTrack opens).mpr (Or.inl ⟨t, member, meets, held⟩), earlier⟩

theorem joinTracks_ordered (qubits : List Int) :
    (joinTracks qubits opened ts).Pairwise Track.Before := by
  refine gather_pairwise _ _ tracked.ordered ?_ ?_
  · intro t taken left
    have listed : t ∈ ts := (List.takeWhile_prefix _).subset taken
    exact before_joinedTrack tracked opens listed fun t' member meets =>
      left t' member (Track.apart_eq_false.mpr meets)
  · intro t member other t' left
    exact joinedTrack_before opens member (Track.apart_eq_false.mp other) left

include present acting

omit opens in
theorem Tracked.join (acts : i.qubits ≠ []) : ∃ joined : List (c.Track cuts),
    joined.map Track.fragment = Fragment.join i.qubits (ts.map Track.fragment) ∧
      Tracked (count + 1) count joined := by
  obtain ⟨opened, size, distinct, opens⟩ := exists_opened present acting tracked
  have members : ∀ t, t ∈ joinTracks i.qubits opened ts ↔
      t = joinedTrack i.qubits opened ts ∨ t ∈ ts ∧ t.fragment.meets i.qubits = false := by
    intro t
    rw [(joinTracks_perm i.qubits opened).mem_iff, List.mem_cons, List.mem_filter,
      Track.apart_eq_true]
  refine ⟨joinTracks i.qubits opened ts, joinTracks_fragments acts opened, ?_, ?_, ?_,
    joinTracks_ordered tracked opens i.qubits⟩
  · intro t member
    rcases (members t).mp member with rfl | ⟨listed, unmet⟩
    · exact joinedTrack_sound present acting tracked opens acts size
    · exact Track.Sound.unmet present acting tracked listed unmet
  · rw [(joinTracks_segments i.qubits opened).nodup_iff, List.nodup_append]
    refine ⟨distinct, tracked.distinct, ?_⟩
    rintro s new s' old rfl
    obtain ⟨t, listed, held⟩ := List.mem_flatMap.mp old
    exact ((opens s).mp new).2 t listed held
  · intro u earlier
    by_cases here : u.position = count
    · exact ⟨_, (members _).mpr (Or.inl rfl),
        segment_mem_joinedTrack present acting tracked opens here⟩
    · obtain ⟨t, listed, held⟩ := tracked.cover u (by omega)
      cases meets : t.fragment.meets i.qubits with
      | false => exact ⟨t, (members t).mpr (Or.inr ⟨listed, meets⟩), held⟩
      | true => exact ⟨_, (members _).mpr (Or.inl rfl),
          (mem_joinedTrack opens).mpr (Or.inl ⟨t, listed, meets, held⟩)⟩

end Join

theorem Tracked.step {i : Instruction} (present : c.data[count]? = some i)
    (tracked : Tracked count (count - 1) ts) : ∃ next : List (c.Track cuts),
      next.map Track.fragment = Fragment.step cuts count i (ts.map Track.fragment) ∧
        Tracked (count + 1) count next := by
  have severed := tracked.sever
  have fragments : (ts.map (Track.sever (Fragment.cutQubits cuts count))).map Track.fragment =
      (ts.map Track.fragment).map (Fragment.sever (Fragment.cutQubits cuts count)) := by
    rw [List.map_map, List.map_map]
    rfl
  rw [Fragment.step, ← fragments]
  -- A barrier uses nothing, and neither does an instruction on no qubits.
  cases acting : i.isBarrier with
  | true =>
      refine ⟨_, rfl, severed.idle fun u here => ?_⟩
      have other := (Use.acts_of present here).1
      rw [acting] at other
      cases other
  | false =>
      by_cases acts : i.qubits = []
      · refine ⟨ts.map (Track.sever (Fragment.cutQubits cuts count)), ?_, severed.idle ?_⟩
        · rw [acts]
          rfl
        · intro u here
          have member := (Use.acts_of present here).2
          rw [acts] at member
          cases member
      · exact Tracked.join present acting severed acts

theorem Tracked.scan {rest : List Instruction} (remaining : c.data.drop count = rest)
    (tracked : Tracked count (count - 1) ts) : ∃ last, ∃ final : List (c.Track cuts),
      final.map Track.fragment = Fragment.scan cuts count (ts.map Track.fragment) rest ∧
        Tracked (count + rest.length) last final := by
  induction rest generalizing count ts with
  | nil => exact ⟨count - 1, ts, rfl, tracked⟩
  | cons i rest ih =>
      have present : c.data[count]? = some i := by
        rw [← List.head?_drop, remaining]
        rfl
      have tail : c.data.drop (count + 1) = rest := by
        rw [← List.tail_drop, remaining]
        rfl
      obtain ⟨next, step, kept⟩ := tracked.step present
      obtain ⟨last, final, run, reached⟩ := ih tail kept
      refine ⟨last, final, ?_, ?_⟩
      · rw [run, step]
        rfl
      · rw [List.length_cons, Nat.add_comm rest.length, ← Nat.add_assoc]
        exact reached

structure Track.Holds (t : c.Track cuts) (f : c.Cluster cuts) : Prop where
  width : t.fragment.width = f.width
  segments : ∀ s, s ∈ t.segments ↔ s.cluster = f

section Whole

variable {last : Nat} (tracked : Tracked c.data.length last ts)

include tracked

theorem Tracked.mem_segments_iff {t : c.Track cuts} (member : t ∈ ts) {s : c.Segment cuts}
    (held : s ∈ t.segments) (s' : c.Segment cuts) :
    s' ∈ t.segments ↔ s'.cluster = s.cluster := by
  have sound := tracked.sound t member
  constructor
  · intro held'
    exact sound.linked s' held' s held
  · intro same
    have closed : (s' ∈ t.segments) = (s ∈ t.segments) := by
      refine eq_of_cluster_eq (· ∈ t.segments) (fun u v position => propext ?_) same
      constructor
      · exact sound.together u v position u.position_lt
      · exact sound.together v u position.symm v.position_lt
    rw [closed]
    exact held

theorem Tracked.exists_holds {t : c.Track cuts} (member : t ∈ ts) : ∃ f, t.Holds f := by
  have sound := tracked.sound t member
  rcases List.exists_mem_of_ne_nil _ sound.nonempty with ⟨s, held⟩
  have segments := tracked.mem_segments_iff member held
  refine ⟨s.cluster, ?_, segments⟩
  classical
  have nodup : t.segments.Nodup := (List.nodup_flatMap.mp tracked.distinct).1 t member
  have card : s.cluster.width = t.segments.toFinset.card := by
    apply Nat.subtype_card
    intro s'
    rw [List.mem_toFinset]
    exact segments s'
  rw [card, List.toFinset_card_of_nodup nodup]
  exact sound.width

theorem Tracked.exists_track (f : c.Cluster cuts) : ∃ t ∈ ts, t.Holds f := by
  rcases f.exists_use with ⟨u, rfl⟩
  rcases tracked.cover u u.position_lt with ⟨t, member, held⟩
  rcases tracked.exists_holds member with ⟨f, holds⟩
  have same : u.cluster cuts = f := (holds.segments _).mp held
  exact ⟨t, member, same ▸ holds⟩

end Whole

theorem exists_tracks (c : Circuit) (cuts : List WireCut) :
    ∃ last, ∃ ts : List (c.Track cuts),
      ts.map Track.fragment = c.fragments cuts ∧ Tracked c.data.length last ts := by
  have start : Tracked 0 (0 - 1) ([] : List (c.Track cuts)) := by
    refine ⟨?_, List.nodup_nil, ?_, List.Pairwise.nil⟩
    · intro t member
      cases member
    · intro u earlier
      cases earlier
  rcases start.scan List.drop_zero with ⟨last, ts, fragments, tracked⟩
  rw [Nat.zero_add] at tracked
  exact ⟨last, ts, fragments, tracked⟩

theorem mem_fragmentWidths {width : Nat} :
    width ∈ c.fragmentWidths cuts ↔ ∃ f : c.Cluster cuts, f.width = width := by
  rcases c.exists_tracks cuts with ⟨last, ts, fragments, tracked⟩
  rw [fragmentWidths, ← fragments, List.map_map, List.mem_map]
  constructor
  · intro listed
    rcases listed with ⟨t, member, rfl⟩
    rcases tracked.exists_holds member with ⟨f, holds⟩
    exact ⟨f, holds.width.symm⟩
  · intro found
    rcases found with ⟨f, rfl⟩
    rcases tracked.exists_track f with ⟨t, member, holds⟩
    exact ⟨t, member, holds.width⟩

theorem cutsFit_iff {budget : Number} :
    c.cutsFit cuts budget = true ↔ ∀ f : c.Cluster cuts, budget.atLeast f.width = true := by
  rw [cutsFit, withinBudget, List.all_eq_true]
  constructor
  · intro fit f
    exact fit f.width (mem_fragmentWidths.mpr ⟨f, rfl⟩)
  · intro fit width member
    rcases mem_fragmentWidths.mp member with ⟨f, rfl⟩
    exact fit f

theorem Track.Before.first_lt {t t' : c.Track cuts} {f f' : c.Cluster cuts} (before : t.Before t')
    (holds : t.Holds f) (holds' : t'.Holds f') : f.first < f'.first := by
  rcases f'.exists_first with ⟨v, position, inside⟩
  rcases before v ((holds'.segments _).mpr inside) with ⟨u, held, earlier⟩
  have same : u.cluster cuts = f := (holds.segments _).mp held
  calc
    f.first = (u.cluster cuts).first := by rw [same]
    _ ≤ u.position := Cluster.first_le u
    _ < v.position := earlier
    _ = f'.first := position

/-- The widths are those of the clusters, one each, in the order of their first instructions. -/
theorem fragmentWidths_eq_clusters (c : Circuit) (cuts : List WireCut) :
    ∃ order : List (c.Cluster cuts), (∀ f, f ∈ order) ∧
      order.Pairwise (fun f g => f.first < g.first) ∧
        c.fragmentWidths cuts = order.map Cluster.width := by
  rcases c.exists_tracks cuts with ⟨last, ts, fragments, tracked⟩
  choose cluster holds using fun (t : c.Track cuts) (member : t ∈ ts) => tracked.exists_holds member
  refine ⟨ts.pmap cluster fun t member => member, ?_, ?_, ?_⟩
  · intro f
    rcases tracked.exists_track f with ⟨t, member, stands⟩
    rcases List.exists_mem_of_ne_nil _ (tracked.sound t member).nonempty with ⟨s, held⟩
    have same : cluster t member = f :=
      (((holds t member).segments s).mp held).symm.trans ((stands.segments s).mp held)
    exact List.mem_pmap.mpr ⟨t, member, same⟩
  · rw [List.pairwise_pmap]
    refine tracked.ordered.imp fun before member member' => ?_
    exact before.first_lt (holds _ member) (holds _ member')
  · rw [fragmentWidths, ← fragments, List.map_map, List.map_pmap]
    refine (List.pmap_eq_map (fun t member => member)).symm.trans ?_
    refine List.pmap_congr_left ts fun t _ member _ => ?_
    exact (holds t member).width

end Circuit
end QuasiCut
