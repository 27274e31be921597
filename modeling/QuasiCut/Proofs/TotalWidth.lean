import Mathlib
import QuasiCut.Proofs.ClusterOrder
import QuasiCut.Proofs.Feasibility

/-! The total width of the fragments. A segment begins at the first use of its qubit, or where a cut
parts a use from the one just before it. So there is one segment for each qubit that is used, and one
for each pair of consecutive uses with a cut between them. -/

namespace QuasiCut

instance (cuts : List WireCut) (qubit : Int) (first last : Nat) :
    Decidable (Severed cuts qubit first last) :=
  inferInstanceAs (Decidable (∃ cut ∈ cuts, _))

namespace Circuit

def UsedAt (c : Circuit) (q : Int) (position : Nat) : Prop :=
  ∃ i ∈ c.data[position]?, i.isBarrier = false ∧ q ∈ i.qubits

instance (c : Circuit) (q : Int) (position : Nat) : Decidable (c.UsedAt q position) :=
  inferInstanceAs (Decidable (∃ i ∈ c.data[position]?, _))

@[mk_iff] structure Consecutive (c : Circuit) (q : Int) (first last : Nat) : Prop where
  before : first < last
  opening : c.UsedAt q first
  closing : c.UsedAt q last
  unused : ∀ position < last, first < position → ¬c.UsedAt q position

instance (c : Circuit) (q : Int) (first last : Nat) : Decidable (c.Consecutive q first last) :=
  decidable_of_iff' _ (consecutive_iff c q first last)

/-- A qubit and two consecutive uses of it, between which it is cut at least once. -/
def severedGaps (c : Circuit) (cuts : List WireCut) : Finset (Int × Nat × Nat) :=
  (c.touched.toFinset ×ˢ Finset.range c.data.length ×ˢ Finset.range c.data.length).filter
    fun (q, first, last) => c.Consecutive q first last ∧ Severed cuts q first last

variable {c : Circuit} {cuts : List WireCut}

section Gaps

variable {q : Int}

theorem Use.usedAt (u : c.Use) : c.UsedAt u.qubit u.position := u.acts

theorem UsedAt.exists_use {position : Nat} (used : c.UsedAt q position) :
    ∃ u : c.Use, u.qubit = q ∧ u.position = position :=
  ⟨⟨position, q, used⟩, rfl, rfl⟩

theorem UsedAt.inside {position : Nat} (used : c.UsedAt q position) :
    q ∈ c.touched ∧ position < c.data.length := by
  obtain ⟨u, rfl, rfl⟩ := used.exists_use
  exact ⟨u.touched, u.position_lt⟩

theorem mem_severedGaps {first last : Nat} :
    (q, first, last) ∈ c.severedGaps cuts ↔
      c.Consecutive q first last ∧ Severed cuts q first last := by
  rw [severedGaps, Finset.mem_filter, and_iff_right_iff_imp]
  intro gap
  have opening := gap.1.opening.inside
  have closing := gap.1.closing.inside
  simp only [Finset.mem_product, List.mem_toFinset, Finset.mem_range]
  exact ⟨opening.1, opening.2, closing.2⟩

theorem Consecutive.first_unique {first first' last : Nat} (gap : c.Consecutive q first last)
    (gap' : c.Consecutive q first' last) : first = first' := by
  by_contra apart
  cases Nat.lt_or_gt_of_ne apart with
  | inl before => exact gap.unused first' gap'.before before gap'.opening
  | inr after => exact gap'.unused first gap.before after gap.opening

end Gaps

namespace Use

def Begins (cuts : List WireCut) (u : c.Use) : Prop :=
  ∀ v : c.Use, v.segment cuts = u.segment cuts → u.position ≤ v.position

def Initial (u : c.Use) : Prop := ∀ v : c.Use, v.qubit = u.qubit → u.position ≤ v.position

def EndsGap (cuts : List WireCut) (u : c.Use) : Prop :=
  ∃ first, (u.qubit, first, u.position) ∈ c.severedGaps cuts

variable {u : c.Use}

theorem Initial.begins (initial : u.Initial) : u.Begins cuts := by
  intro v same
  exact initial v (segment_eq_iff.mp same).1

theorem exists_consecutive (later : ¬u.Initial) :
    ∃ first, c.Consecutive u.qubit first u.position := by
  let earlier : Set c.Use := {v | v.qubit = u.qubit ∧ v.position < u.position}
  have nonempty : earlier.Nonempty := by
    unfold Initial at later
    push Not at later
    exact later
  obtain ⟨v, ⟨qubit, before⟩, last⟩ :=
    Set.exists_max_image earlier position earlier.toFinite nonempty
  have unused : ∀ position < u.position, v.position < position → ¬c.UsedAt u.qubit position := by
    intro position inside beyond used
    obtain ⟨w, same, rfl⟩ := used.exists_use
    have bound := last w ⟨same, inside⟩
    omega
  exact ⟨v.position, before, qubit ▸ v.usedAt, u.usedAt, unused⟩

section Gap

variable {first : Nat} (gap : c.Consecutive u.qubit first u.position)

include gap

theorem severed_of_begins (begins : u.Begins cuts) : Severed cuts u.qubit first u.position := by
  obtain ⟨v, qubit, rfl⟩ := gap.opening.exists_use
  by_contra whole
  have same : v.segment cuts = u.segment cuts := by
    rw [segment_eq_of_le qubit gap.before.le, qubit]
    exact whole
  have bound := begins v same
  have before := gap.before
  omega

theorem begins_of_severed (severed : Severed cuts u.qubit first u.position) : u.Begins cuts := by
  obtain ⟨cut, member, on, after, before⟩ := severed
  intro v same
  have qubit : v.qubit = u.qubit := (segment_eq_iff.mp same).1
  by_contra earlier
  -- The earlier use is not inside the gap, so the cut lies between the two.
  have outside : v.position ≤ first := by
    by_contra inside
    have used := v.usedAt
    rw [qubit] at used
    exact gap.unused v.position (by omega) (by omega) used
  have whole := (segment_eq_of_le qubit (by omega)).mp same
  exact whole ⟨cut, member, on.trans qubit.symm, by omega, before⟩

end Gap

theorem begins_iff : u.Begins cuts ↔ u.Initial ∨ u.EndsGap cuts := by
  constructor
  · intro begins
    by_cases initial : u.Initial
    · exact Or.inl initial
    · obtain ⟨first, gap⟩ := exists_consecutive initial
      exact Or.inr ⟨first, mem_severedGaps.mpr ⟨gap, severed_of_begins gap begins⟩⟩
  · intro either
    cases either with
    | inl initial => exact initial.begins
    | inr ends =>
        obtain ⟨first, member⟩ := ends
        have gap := mem_severedGaps.mp member
        exact begins_of_severed gap.1 gap.2

theorem Initial.not_endsGap (initial : u.Initial) : ¬u.EndsGap cuts := by
  intro ends
  obtain ⟨first, member⟩ := ends
  have gap := (mem_severedGaps.mp member).1
  obtain ⟨v, qubit, rfl⟩ := gap.opening.exists_use
  have bound := initial v qubit
  have before := gap.before
  omega

end Use

section Count

theorem card_segments : Nat.card (c.Segment cuts) = {u : c.Use | u.Begins cuts}.ncard := by
  have injective : Set.InjOn (Use.segment cuts) {u : c.Use | u.Begins cuts} := by
    intro u begins v begins' same
    have position := le_antisymm (begins v same.symm) (begins' u same)
    exact Use.ext position (segment_eq_iff.mp same).1
  have image : Use.segment cuts '' {u : c.Use | u.Begins cuts} = Set.univ := by
    rw [Set.eq_univ_iff_forall]
    intro s
    let uses : Set c.Use := {u | u.segment cuts = s}
    obtain ⟨u, inside, least⟩ :=
      Set.exists_min_image uses Use.position uses.toFinite (exists_use s)
    exact ⟨u, fun v same => least v (same.trans inside), inside⟩
  rw [← injective.ncard_image, image, Set.ncard_univ]

theorem nodup_eraseDups (items : List Int) : items.eraseDups.Nodup := by
  induction size : items.length using Nat.strong_induction_on generalizing items with
  | _ n ih =>
    cases items with
    | nil => exact List.nodup_nil
    | cons item rest =>
        have shorter := List.length_filter_le (fun other => !other == item) rest
        rw [List.length_cons] at size
        rw [List.eraseDups_cons, List.nodup_cons]
        exact ⟨by simp, ih _ (by omega) _ rfl⟩

theorem exists_initial {q : Int} (touched : q ∈ c.touched) :
    ∃ u : c.Use, u.Initial ∧ u.qubit = q := by
  let uses : Set c.Use := {u | u.qubit = q}
  have nonempty : uses.Nonempty := by
    obtain ⟨i, member, acting, acted⟩ := mem_touched.mp touched
    obtain ⟨position, found⟩ := List.getElem?_of_mem member
    exact ⟨⟨position, q, i, found, acting, acted⟩, rfl⟩
  obtain ⟨u, on, least⟩ := Set.exists_min_image uses Use.position uses.toFinite nonempty
  exact ⟨u, fun v same => least v (same.trans on), on⟩

theorem card_initial : {u : c.Use | u.Initial}.ncard = c.touched.length := by
  have injective : Set.InjOn Use.qubit {u : c.Use | u.Initial} := by
    intro u initial v initial' same
    exact Use.ext (le_antisymm (initial v same.symm) (initial' u same)) same
  have image : Use.qubit '' {u : c.Use | u.Initial} = (c.touched.toFinset : Set Int) := by
    ext q
    rw [List.coe_toFinset]
    constructor
    · rintro ⟨u, -, rfl⟩
      exact u.touched
    · exact exists_initial
  have distinct : c.touched.Nodup := nodup_eraseDups _
  rw [← injective.ncard_image, image, Set.ncard_coe_finset, List.toFinset_card_of_nodup distinct]

/-- Every severed gap has one use that ends it. Both are told by qubit and position. -/
theorem card_endsGap : {u : c.Use | u.EndsGap cuts}.ncard = (c.severedGaps cuts).card := by
  have uses : Function.Injective fun u : c.Use => (u.qubit, u.position) := by
    intro u v same
    exact Use.ext (congrArg Prod.snd same) (congrArg Prod.fst same)
  have gaps : Set.InjOn (fun gap : Int × Nat × Nat => (gap.1, gap.2.2)) (c.severedGaps cuts) := by
    rintro ⟨q, first, last⟩ member ⟨q', first', last'⟩ member' same
    cases same
    rw [(mem_severedGaps.mp member).1.first_unique (mem_severedGaps.mp member').1]
  have places : (fun u : c.Use => (u.qubit, u.position)) '' {u : c.Use | u.EndsGap cuts} =
      (fun gap : Int × Nat × Nat => (gap.1, gap.2.2)) '' (c.severedGaps cuts) := by
    ext place
    constructor
    · rintro ⟨u, ⟨first, member⟩, rfl⟩
      exact ⟨(u.qubit, first, u.position), member, rfl⟩
    · rintro ⟨⟨q, first, last⟩, member, rfl⟩
      obtain ⟨u, rfl, rfl⟩ := (mem_severedGaps.mp member).1.closing.exists_use
      exact ⟨u, ⟨first, member⟩, rfl⟩
  rw [← uses.injOn.ncard_image, places, gaps.ncard_image, Set.ncard_coe_finset]

theorem sum_fragmentWidths : (c.fragmentWidths cuts).sum = Nat.card (c.Segment cuts) := by
  calc
    (c.fragmentWidths cuts).sum = (c.fragmentWidths cuts : Multiset Nat).sum :=
      (Multiset.sum_coe _).symm
    _ = ∑ f : c.Cluster cuts, f.width := by
      rw [fragmentWidths_multiset]
      rfl
    _ = Nat.card (Σ f : c.Cluster cuts, {s : c.Segment cuts // s.cluster = f}) :=
      Nat.card_sigma.symm
    _ = Nat.card (c.Segment cuts) := Nat.card_congr (Equiv.sigmaFiberEquiv Segment.cluster)

end Count

/-- The widths add up to the number of qubits that are used and the number of severed gaps. -/
theorem totalWidth_conserved (c : Circuit) (cuts : List WireCut) :
    (c.fragmentWidths cuts).sum = c.touched.length + (c.severedGaps cuts).card := by
  have parts : {u : c.Use | u.Begins cuts} =
      {u : c.Use | u.Initial} ∪ {u : c.Use | u.EndsGap cuts} := by
    ext u
    exact Use.begins_iff
  have disjoint : Disjoint {u : c.Use | u.Initial} {u : c.Use | u.EndsGap cuts} := by
    rw [Set.disjoint_left]
    intro u initial
    exact Use.Initial.not_endsGap initial
  calc
    (c.fragmentWidths cuts).sum = Nat.card (c.Segment cuts) := sum_fragmentWidths
    _ = {u : c.Use | u.Begins cuts}.ncard := card_segments
    _ = {u : c.Use | u.Initial}.ncard + {u : c.Use | u.EndsGap cuts}.ncard := by
      rw [parts, Set.ncard_union_eq disjoint]
    _ = c.touched.length + (c.severedGaps cuts).card := by rw [card_initial, card_endsGap]

def fenced : Circuit :=
  (empty [⟨"q", 3⟩] []).withData
    [⟨"cx", [0, 1], [], []⟩, ⟨"barrier", [0, 1, 2], [], []⟩, ⟨"cx", [0, 1], [], []⟩] (by decide)

-- Two cuts share a gap across the barrier. The others lie before the first use, after the last one,
-- on a qubit that is not used, and on none.
example :
    fenced.fragmentWidths [⟨1, 1⟩, ⟨2, 1⟩, ⟨0, 0⟩, ⟨3, 0⟩, ⟨1, 2⟩, ⟨1, 7⟩] = [3] ∧
      fenced.touched = [0, 1] ∧
      fenced.severedGaps [⟨1, 1⟩, ⟨2, 1⟩, ⟨0, 0⟩, ⟨3, 0⟩, ⟨1, 2⟩, ⟨1, 7⟩] = {(1, 0, 2)} := by
  decide

end Circuit
end QuasiCut
