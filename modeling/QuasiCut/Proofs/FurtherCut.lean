import Mathlib
import QuasiCut.Proofs.ClusterOrder

/-! One more cut. It severs one segment or none. The fragment of a severed segment grows by one qubit
or falls into two, and every other fragment stays as it is. -/

namespace QuasiCut

/-- One entry grows by one, or makes way for two positive entries whose sum is greater by one. -/
inductive Grows : Multiset Nat → Multiset Nat → Prop
  | widened (width : Nat) (others : Multiset Nat) : Grows (width ::ₘ others) ((width + 1) ::ₘ others)
  | divided {width first second : Nat} (others : Multiset Nat) (left : 1 ≤ first) (right : 1 ≤ second)
      (total : first + second = width + 1) : Grows (width ::ₘ others) (first ::ₘ second ::ₘ others)

theorem Grows.sum {before after : Multiset Nat} (grows : Grows before after) :
    after.sum = before.sum + 1 := by
  cases grows with
  | widened width others =>
      rw [Multiset.sum_cons, Multiset.sum_cons]
      omega
  | divided others left right total =>
      rw [Multiset.sum_cons, Multiset.sum_cons, Multiset.sum_cons]
      omega

theorem severed_concat {cuts : List WireCut} {cut : WireCut} {q : Int} {first last : Nat} :
    Severed (cuts ++ [cut]) q first last ↔
      Severed cuts q first last ∨
        cut.qubit = q ∧ (first : Int) < cut.position ∧ cut.position ≤ last := by
  simp [Severed, or_and_right, exists_or]

namespace Circuit

variable {c : Circuit} {cuts : List WireCut} {cut : WireCut}

structure Across (cuts : List WireCut) (cut : WireCut) (u v : c.Use) : Prop where
  qubit : u.qubit = cut.qubit
  before : (u.position : Int) < cut.position
  after : cut.position ≤ v.position
  whole : u.segment cuts = v.segment cuts

/-- The cut separates two uses that no cut has separated yet. -/
def Severs (c : Circuit) (cuts : List WireCut) (cut : WireCut) : Prop :=
  ∃ u v : c.Use, Across cuts cut u v

section Segments

theorem cluster_eq_of_segment {u v : c.Use} (same : u.segment cuts = v.segment cuts) :
    u.cluster cuts = v.cluster cuts :=
  congrArg Segment.cluster same

theorem segment_of_concat {u v : c.Use}
    (same : u.segment (cuts ++ [cut]) = v.segment (cuts ++ [cut])) :
    u.segment cuts = v.segment cuts := by
  rw [segment_eq_iff] at same ⊢
  exact ⟨same.1, fun severed => same.2 (severed_concat.mpr (Or.inl severed))⟩

theorem segment_concat_or (cut : WireCut) {u v : c.Use} (whole : u.segment cuts = v.segment cuts) :
    u.segment (cuts ++ [cut]) = v.segment (cuts ++ [cut]) ∨
      Across cuts cut u v ∨ Across cuts cut v u := by
  have same := segment_eq_iff.mp whole
  by_cases between : cut.qubit = u.qubit ∧
      (min u.position v.position : Int) < cut.position ∧
        cut.position ≤ (max u.position v.position : Int)
  · right
    rcases le_total u.position v.position with earlier | later
    · exact Or.inl ⟨between.1.symm, by omega, by omega, whole⟩
    · exact Or.inr ⟨same.1.symm.trans between.1.symm, by omega, by omega, whole.symm⟩
  · left
    rw [segment_eq_iff]
    refine ⟨same.1, fun severed => ?_⟩
    rcases severed_concat.mp severed with old | new
    · exact same.2 old
    · rw [Nat.cast_min, Nat.cast_max] at new
      exact between new

theorem segment_concat_of_side {u v : c.Use} (whole : u.segment cuts = v.segment cuts)
    (side : (u.position : Int) < cut.position ↔ (v.position : Int) < cut.position) :
    u.segment (cuts ++ [cut]) = v.segment (cuts ++ [cut]) := by
  rcases segment_concat_or cut whole with same | across | across
  · exact same
  · have before := side.mp across.before
    have after := across.after
    omega
  · have before := side.mpr across.before
    have after := across.after
    omega

namespace Across

variable {a z u v : c.Use} (across : Across cuts cut a z)

include across

theorem uncut : ¬Severed cuts cut.qubit a.position z.position := by
  have before := across.before
  have after := across.after
  have whole := across.whole
  have qubit := (segment_eq_iff.mp whole).1
  rw [segment_eq_of_le qubit (by omega), across.qubit] at whole
  exact whole

theorem shared (other : Across cuts cut u v) : u.segment cuts = a.segment cuts := by
  rw [segment_eq_iff]
  refine ⟨other.qubit.trans across.qubit.symm, ?_⟩
  rintro ⟨between, member, on, after, upto⟩
  rw [other.qubit] at on
  have left := across.before
  have right := across.after
  have left' := other.before
  have right' := other.after
  -- A cut between the two earlier uses would separate one of them from its later use.
  rcases le_total u.position a.position with first | second
  · exact other.uncut ⟨between, member, on, by omega, by omega⟩
  · exact across.uncut ⟨between, member, on, by omega, by omega⟩

theorem segment_left (other : Across cuts cut u v) :
    u.segment (cuts ++ [cut]) = a.segment (cuts ++ [cut]) :=
  segment_concat_of_side (across.shared other) (iff_of_true other.before across.before)

theorem segment_right (other : Across cuts cut u v) :
    v.segment (cuts ++ [cut]) = z.segment (cuts ++ [cut]) := by
  have whole : v.segment cuts = z.segment cuts :=
    other.whole.symm.trans ((across.shared other).trans across.whole)
  exact segment_concat_of_side whole (iff_of_false other.after.not_gt across.after.not_gt)

theorem cluster_left (other : Across cuts cut u v) :
    u.cluster (cuts ++ [cut]) = a.cluster (cuts ++ [cut]) :=
  cluster_eq_of_segment (across.segment_left other)

theorem cluster_right (other : Across cuts cut u v) :
    v.cluster (cuts ++ [cut]) = z.cluster (cuts ++ [cut]) :=
  cluster_eq_of_segment (across.segment_right other)

theorem segment_ne : a.segment (cuts ++ [cut]) ≠ z.segment (cuts ++ [cut]) := by
  intro same
  have before := across.before
  have after := across.after
  rw [segment_eq_iff] at same
  apply same.2
  rw [severed_concat, Nat.cast_min, Nat.cast_max]
  exact Or.inr ⟨across.qubit.symm, by omega, by omega⟩

end Across

end Segments

section Rejoin

def Segment.rejoin : c.Segment (cuts ++ [cut]) → c.Segment cuts :=
  Quotient.lift (Use.segment cuts) fun _ _ same => segment_of_concat (segment_eq_iff.mpr same)

theorem cluster_rejoin_segment {s t : c.Segment (cuts ++ [cut])} (same : s.cluster = t.cluster) :
    s.rejoin.cluster = t.rejoin.cluster :=
  eq_of_cluster_eq (fun s : c.Segment (cuts ++ [cut]) => s.rejoin.cluster)
    (fun _ _ position => cluster_eq_of_position position) same

def Cluster.rejoin : c.Cluster (cuts ++ [cut]) → c.Cluster cuts :=
  Quotient.lift (fun s => s.rejoin.cluster) fun _ _ same =>
    cluster_rejoin_segment (Quotient.sound same)

theorem cluster_of_concat {u v : c.Use}
    (same : u.cluster (cuts ++ [cut]) = v.cluster (cuts ++ [cut])) :
    u.cluster cuts = v.cluster cuts :=
  congrArg Cluster.rejoin same

theorem Cluster.rejoin_surjective (cut : WireCut) :
    Function.Surjective (Cluster.rejoin : c.Cluster (cuts ++ [cut]) → c.Cluster cuts) := by
  intro f
  rcases f.exists_use with ⟨u, rfl⟩
  exact ⟨u.cluster (cuts ++ [cut]), rfl⟩

noncomputable def Cluster.collapse (first second f : c.Cluster cuts) : c.Cluster cuts :=
  if f = second then first else f

theorem Cluster.collapse_first (first second : c.Cluster cuts) :
    collapse first second first = first := ite_self _

theorem Cluster.collapse_second (first second : c.Cluster cuts) :
    collapse first second second = first := if_pos rfl

theorem Cluster.collapse_other {first second f : c.Cluster cuts} (other : f ≠ second) :
    collapse first second f = f := if_neg other

namespace Across

variable {a z : c.Use} (across : Across cuts cut a z)

include across

theorem rejoin_segment {s t : c.Segment (cuts ++ [cut])} (same : s.rejoin = t.rejoin) :
    s = t ∨ s = a.segment (cuts ++ [cut]) ∧ t = z.segment (cuts ++ [cut]) ∨
      s = z.segment (cuts ++ [cut]) ∧ t = a.segment (cuts ++ [cut]) := by
  rcases exists_use s with ⟨u, rfl⟩
  rcases exists_use t with ⟨v, rfl⟩
  rcases segment_concat_or cut same with alike | other | other
  · exact Or.inl alike
  · exact Or.inr (Or.inl ⟨across.segment_left other, across.segment_right other⟩)
  · exact Or.inr (Or.inr ⟨across.segment_right other, across.segment_left other⟩)

/-- Apart from the two ends of the severed segment, what was together stays together. -/
theorem collapse_eq {g h : c.Cluster (cuts ++ [cut])} (same : g.rejoin = h.rejoin) :
    Cluster.collapse (a.cluster (cuts ++ [cut])) (z.cluster (cuts ++ [cut])) g =
      Cluster.collapse (a.cluster (cuts ++ [cut])) (z.cluster (cuts ++ [cut])) h := by
  rcases g.exists_use with ⟨u, rfl⟩
  rcases h.exists_use with ⟨v, rfl⟩
  have together : u.cluster cuts = v.cluster cuts := same
  apply eq_of_use_cluster (fun u => Cluster.collapse (a.cluster (cuts ++ [cut]))
    (z.cluster (cuts ++ [cut])) (u.cluster (cuts ++ [cut]))) _ _ together
  · intro u v whole
    rcases segment_concat_or cut whole with alike | other | other
    · rw [cluster_eq_of_segment alike]
    · rw [across.cluster_left other, across.cluster_right other, Cluster.collapse_first,
        Cluster.collapse_second]
    · rw [across.cluster_left other, across.cluster_right other, Cluster.collapse_first,
        Cluster.collapse_second]
  · intro u v position
    rw [cluster_eq_of_position position]

theorem rejoin_eq_iff {g : c.Cluster (cuts ++ [cut])} :
    g.rejoin = a.cluster cuts ↔
      g = a.cluster (cuts ++ [cut]) ∨ g = z.cluster (cuts ++ [cut]) := by
  constructor
  · intro same
    by_cases last : g = z.cluster (cuts ++ [cut])
    · exact Or.inr last
    · have collapsed := across.collapse_eq (h := a.cluster (cuts ++ [cut])) same
      rw [Cluster.collapse_other last, Cluster.collapse_first] at collapsed
      exact Or.inl collapsed
  · rintro (rfl | rfl)
    · rfl
    · exact cluster_eq_of_segment across.whole.symm

theorem rejoin_inj {g h : c.Cluster (cuts ++ [cut])} (elsewhere : g.rejoin ≠ a.cluster cuts)
    (same : g.rejoin = h.rejoin) : g = h := by
  have apart : g ≠ z.cluster (cuts ++ [cut]) := fun last =>
    elsewhere (across.rejoin_eq_iff.mpr (Or.inr last))
  have apart' : h ≠ z.cluster (cuts ++ [cut]) := fun last =>
    elsewhere (same.trans (across.rejoin_eq_iff.mpr (Or.inr last)))
  have collapsed := across.collapse_eq same
  rw [Cluster.collapse_other apart, Cluster.collapse_other apart'] at collapsed
  exact collapsed

end Across

end Rejoin

section Widths

def Cluster.segments (f : c.Cluster cuts) : Set (c.Segment cuts) := {s | s.cluster = f}

theorem Cluster.mem_segments {f : c.Cluster cuts} {s : c.Segment cuts} :
    s ∈ f.segments ↔ s.cluster = f := Iff.rfl

theorem Cluster.width_eq_ncard (f : c.Cluster cuts) : f.width = f.segments.ncard :=
  Nat.card_coe_set_eq _

theorem Cluster.width_pos (f : c.Cluster cuts) : 1 ≤ f.width := by
  rcases f.exists_use with ⟨u, inside⟩
  rw [width_eq_ncard]
  exact (Set.ncard_pos f.segments.toFinite).mpr ⟨u.segment cuts, inside⟩

namespace Across

variable {a z : c.Use} (across : Across cuts cut a z)

include across

theorem width_rejoin {g : c.Cluster (cuts ++ [cut])} (elsewhere : g.rejoin ≠ a.cluster cuts) :
    g.rejoin.width = g.width := by
  have image : g.rejoin.segments = Segment.rejoin '' g.segments := by
    ext s
    constructor
    · intro inside
      rcases exists_use s with ⟨u, rfl⟩
      have same : g.rejoin = (u.cluster (cuts ++ [cut])).rejoin := inside.symm
      exact ⟨u.segment (cuts ++ [cut]), (across.rejoin_inj elsewhere same).symm, rfl⟩
    · rintro ⟨t, inside, rfl⟩
      exact congrArg Cluster.rejoin inside
  have injective : Set.InjOn Segment.rejoin g.segments := by
    intro s inside t _ same
    rcases across.rejoin_segment same with alike | ends | ends
    · exact alike
    · rw [Cluster.mem_segments, ends.1] at inside
      exact absurd (across.rejoin_eq_iff.mpr (Or.inl inside.symm)) elsewhere
    · rw [Cluster.mem_segments, ends.1] at inside
      exact absurd (across.rejoin_eq_iff.mpr (Or.inr inside.symm)) elsewhere
  calc
    g.rejoin.width = (Segment.rejoin '' g.segments).ncard := by
      rw [Cluster.width_eq_ncard, image]
    _ = g.segments.ncard := injective.ncard_image
    _ = g.width := (Cluster.width_eq_ncard g).symm

theorem ncard_ends :
    ((a.cluster (cuts ++ [cut])).segments ∪ (z.cluster (cuts ++ [cut])).segments).ncard =
      (a.cluster cuts).width + 1 := by
  let ends := (a.cluster (cuts ++ [cut])).segments ∪ (z.cluster (cuts ++ [cut])).segments
  have image : (a.cluster cuts).segments =
      Segment.rejoin '' (ends \ {z.segment (cuts ++ [cut])}) := by
    ext s
    constructor
    · intro inside
      rcases exists_use s with ⟨u, rfl⟩
      by_cases last : u.segment (cuts ++ [cut]) = z.segment (cuts ++ [cut])
      · refine ⟨a.segment (cuts ++ [cut]), ⟨Or.inl rfl, across.segment_ne⟩, ?_⟩
        exact across.whole.trans (segment_of_concat last).symm
      · exact ⟨u.segment (cuts ++ [cut]), ⟨across.rejoin_eq_iff.mp inside, last⟩, rfl⟩
    · rintro ⟨t, ⟨inside, -⟩, rfl⟩
      exact across.rejoin_eq_iff.mpr inside
  have injective : Set.InjOn Segment.rejoin (ends \ {z.segment (cuts ++ [cut])}) := by
    intro s member t member' same
    rcases across.rejoin_segment same with alike | last | last
    · exact alike
    · exact absurd last.2 member'.2
    · exact absurd last.1 member.2
  have present : z.segment (cuts ++ [cut]) ∈ ends := Or.inr rfl
  calc
    ends.ncard = (ends \ {z.segment (cuts ++ [cut])}).ncard + 1 :=
      (Set.ncard_sdiff_singleton_add_one present).symm
    _ = (a.cluster cuts).width + 1 := by
      rw [Cluster.width_eq_ncard, image, injective.ncard_image]

theorem width_joined (joined : a.cluster (cuts ++ [cut]) = z.cluster (cuts ++ [cut])) :
    (a.cluster (cuts ++ [cut])).width = (a.cluster cuts).width + 1 := by
  rw [← across.ncard_ends, ← joined, Set.union_self, Cluster.width_eq_ncard]

theorem width_apart (apart : a.cluster (cuts ++ [cut]) ≠ z.cluster (cuts ++ [cut])) :
    (a.cluster (cuts ++ [cut])).width + (z.cluster (cuts ++ [cut])).width =
      (a.cluster cuts).width + 1 := by
  have disjoint : Disjoint (a.cluster (cuts ++ [cut])).segments
      (z.cluster (cuts ++ [cut])).segments := by
    rw [Set.disjoint_left]
    intro t first second
    rw [Cluster.mem_segments] at first second
    exact apart (first.symm.trans second)
  rw [← across.ncard_ends, Set.ncard_union_eq disjoint, Cluster.width_eq_ncard,
    Cluster.width_eq_ncard]

noncomputable def others (_ : Across cuts cut a z) : Finset (c.Cluster (cuts ++ [cut])) :=
  Finset.univ.filter fun g => g.rejoin ≠ a.cluster cuts

theorem others_widths :
    across.others.val.map Cluster.width =
      ((Finset.univ : Finset (c.Cluster cuts)).erase (a.cluster cuts)).val.map Cluster.width := by
  have image : Finset.univ.erase (a.cluster cuts) = across.others.image Cluster.rejoin := by
    ext f
    rcases Cluster.rejoin_surjective cut f with ⟨g, rfl⟩
    simp only [others, Finset.mem_erase, Finset.mem_univ, and_true, Finset.mem_image,
      Finset.mem_filter, true_and]
    constructor
    · intro elsewhere
      exact ⟨g, elsewhere, rfl⟩
    · rintro ⟨h, elsewhere, same⟩
      rw [← same]
      exact elsewhere
  have injective : Set.InjOn Cluster.rejoin (across.others : Set (c.Cluster (cuts ++ [cut]))) := by
    intro g member h _ same
    exact across.rejoin_inj (Finset.mem_filter.mp member).2 same
  rw [image, Finset.image_val_of_injOn injective, Multiset.map_map]
  apply Multiset.map_congr rfl
  intro g member
  exact (across.width_rejoin (Finset.mem_filter.mp member).2).symm

theorem univ_eq : (Finset.univ : Finset (c.Cluster (cuts ++ [cut]))) =
    insert (a.cluster (cuts ++ [cut])) (insert (z.cluster (cuts ++ [cut])) across.others) := by
  ext g
  simp only [Finset.mem_univ, true_iff, Finset.mem_insert, others, Finset.mem_filter, true_and]
  by_cases here : g.rejoin = a.cluster cuts
  · rcases across.rejoin_eq_iff.mp here with first | last
    · exact Or.inl first
    · exact Or.inr (Or.inl last)
  · exact Or.inr (Or.inr here)

theorem grows : Grows (c.fragmentWidths cuts) (c.fragmentWidths (cuts ++ [cut])) := by
  have before : (c.fragmentWidths cuts : Multiset Nat) =
      (a.cluster cuts).width ::ₘ across.others.val.map Cluster.width := by
    rw [fragmentWidths_multiset, across.others_widths, ← Multiset.map_cons,
      ← Finset.insert_val_of_notMem (Finset.notMem_erase _ _),
      Finset.insert_erase (Finset.mem_univ _)]
  have left : a.cluster (cuts ++ [cut]) ∉ across.others := fun member =>
    (Finset.mem_filter.mp member).2 (across.rejoin_eq_iff.mpr (Or.inl rfl))
  have right : z.cluster (cuts ++ [cut]) ∉ across.others := fun member =>
    (Finset.mem_filter.mp member).2 (across.rejoin_eq_iff.mpr (Or.inr rfl))
  rw [before, fragmentWidths_multiset, across.univ_eq]
  by_cases joined : a.cluster (cuts ++ [cut]) = z.cluster (cuts ++ [cut])
  · rw [← joined, Finset.insert_idem, Finset.insert_val_of_notMem left, Multiset.map_cons,
      across.width_joined joined]
    exact Grows.widened _ _
  · have outside : a.cluster (cuts ++ [cut]) ∉ insert (z.cluster (cuts ++ [cut])) across.others := by
      rw [Finset.mem_insert, not_or]
      exact ⟨joined, left⟩
    rw [Finset.insert_val_of_notMem outside, Finset.insert_val_of_notMem right, Multiset.map_cons,
      Multiset.map_cons]
    exact Grows.divided _ (Cluster.width_pos _) (Cluster.width_pos _) (across.width_apart joined)

end Across

end Widths

theorem fragmentWidths_unsevered (unsevered : ¬c.Severs cuts cut) :
    c.fragmentWidths (cuts ++ [cut]) = c.fragmentWidths cuts := by
  have segments : ∀ u v : c.Use, u.segment (cuts ++ [cut]) = v.segment (cuts ++ [cut]) ↔
      u.segment cuts = v.segment cuts := by
    intro u v
    constructor
    · exact segment_of_concat
    · intro whole
      rcases segment_concat_or cut whole with same | across | across
      · exact same
      · exact absurd ⟨u, v, across⟩ unsevered
      · exact absurd ⟨v, u, across⟩ unsevered
  let same : Embedding c (cuts ++ [cut]) c cuts := ⟨id, fun _ _ position => position, segments⟩
  exact same.fragmentWidths_eq Function.surjective_id fun _ _ before => before

/-- A further cut changes nothing if it severs no segment. If it severs one, the width of one
fragment grows by one, or two widths take its place whose sum is greater by one. So it never joins
fragments, and it takes one more qubit exactly if it severs something. -/
theorem fragmentWidths_concat (c : Circuit) (cuts : List WireCut) (cut : WireCut) :
    (¬c.Severs cuts cut → c.fragmentWidths (cuts ++ [cut]) = c.fragmentWidths cuts) ∧
    (c.Severs cuts cut → Grows (c.fragmentWidths cuts) (c.fragmentWidths (cuts ++ [cut]))) ∧
    (∀ u v : c.Use, u.cluster (cuts ++ [cut]) = v.cluster (cuts ++ [cut]) →
      u.cluster cuts = v.cluster cuts) ∧
    ((c.fragmentWidths (cuts ++ [cut])).sum = (c.fragmentWidths cuts).sum + 1 ↔
      c.Severs cuts cut) := by
  have grown : c.Severs cuts cut →
      Grows (c.fragmentWidths cuts) (c.fragmentWidths (cuts ++ [cut])) := by
    rintro ⟨a, z, across⟩
    exact across.grows
  refine ⟨fragmentWidths_unsevered, grown, fun u v => cluster_of_concat, ?_, ?_⟩
  · intro more
    by_contra unsevered
    rw [fragmentWidths_unsevered unsevered] at more
    omega
  · intro severs
    have total := (grown severs).sum
    rw [Multiset.sum_coe, Multiset.sum_coe] at total
    exact total

def relay : Circuit :=
  (empty [⟨"q", 3⟩] []).withData
    [⟨"cx", [0, 1], [], []⟩, ⟨"cx", [0, 1], [], []⟩, ⟨"cx", [1, 2], [], []⟩] (by decide)

theorem relay_concat :
    (relay.Severs [] ⟨1, 1⟩ ∧ relay.fragmentWidths [⟨1, 1⟩] = [4] ∧
      Grows (relay.fragmentWidths []) (relay.fragmentWidths [⟨1, 1⟩])) ∧
    (relay.Severs [] ⟨2, 1⟩ ∧ relay.fragmentWidths [⟨2, 1⟩] = [2, 2] ∧
      Grows (relay.fragmentWidths []) (relay.fragmentWidths [⟨2, 1⟩])) ∧
    ¬relay.Severs [⟨2, 1⟩] ⟨2, 1⟩ ∧
      relay.fragmentWidths [⟨2, 1⟩, ⟨2, 1⟩] = relay.fragmentWidths [⟨2, 1⟩] := by
  have first := fragmentWidths_concat relay [] ⟨1, 1⟩
  have second := fragmentWidths_concat relay [] ⟨2, 1⟩
  have again := fragmentWidths_concat relay [⟨2, 1⟩] ⟨2, 1⟩
  have severs := first.2.2.2.mp (by decide)
  have severs' := second.2.2.2.mp (by decide)
  have unsevered : ¬relay.Severs [⟨2, 1⟩] ⟨2, 1⟩ := fun severed =>
    absurd (again.2.2.2.mpr severed) (by decide)
  exact ⟨⟨severs, by decide, first.2.1 severs⟩, ⟨severs', by decide, second.2.1 severs'⟩,
    unsevered, again.1 unsevered⟩

end Circuit
end QuasiCut
