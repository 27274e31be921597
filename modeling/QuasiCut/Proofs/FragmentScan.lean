import Mathlib
import QuasiCut.Proofs.Segments

/-! The invariant of the scan, and the fragment that one instruction makes. A history variable tells
which segments each fragment holds: a fragment's wires are then the qubits whose use by the next
instruction is in one of its segments. -/

namespace QuasiCut

namespace Circuit

variable {c : Circuit} {cuts : List WireCut}

/-- A fragment of the scan and the segments it stands for. -/
structure Track (c : Circuit) (cuts : List WireCut) where
  fragment : Fragment
  segments : List (c.Segment cuts)

/-- What holds of a fragment once the scan has passed the instructions before `count` and made the
cuts up to position `last`. -/
structure Track.Sound (count last : Nat) (t : c.Track cuts) : Prop where
  width : t.fragment.width = t.segments.length
  nonempty : t.segments ≠ []
  reached : ∀ s ∈ t.segments, ∃ u : c.Use, u.position < count ∧ u.segment cuts = s
  together : ∀ u v : c.Use, u.position = v.position → u.position < count →
    u.segment cuts ∈ t.segments → v.segment cuts ∈ t.segments
  linked : ∀ s ∈ t.segments, ∀ s' ∈ t.segments, s.cluster = s'.cluster
  wires : ∀ q, q ∈ t.fragment.wires ↔ ∃ u : c.Use, u.position < count ∧ u.qubit = q ∧
    u.segment cuts ∈ t.segments ∧ ¬Severed cuts q u.position last

def Track.Before (t t' : c.Track cuts) : Prop :=
  ∀ v : c.Use, v.segment cuts ∈ t'.segments →
    ∃ u : c.Use, u.segment cuts ∈ t.segments ∧ u.position < v.position

structure Tracked (count last : Nat) (ts : List (c.Track cuts)) : Prop where
  sound : ∀ t ∈ ts, t.Sound count last
  distinct : (ts.flatMap Track.segments).Nodup
  cover : ∀ u : c.Use, u.position < count → ∃ t ∈ ts, u.segment cuts ∈ t.segments
  ordered : ts.Pairwise Track.Before

theorem severed_iff {q : Int} {first count : Nat} (earlier : first < count) :
    Severed cuts q first count ↔
      Severed cuts q first (count - 1) ∨ q ∈ Fragment.cutQubits cuts count := by
  have listed : q ∈ Fragment.cutQubits cuts count ↔
      ∃ cut ∈ cuts, cut.position = count ∧ cut.qubit = q := by
    simp [Fragment.cutQubits, and_assoc]
  rw [listed]
  constructor
  · rintro ⟨cut, member, qubit, after, before⟩
    by_cases here : cut.position = count
    · exact Or.inr ⟨cut, member, here, qubit⟩
    · exact Or.inl ⟨cut, member, qubit, after, by omega⟩
  · rintro (⟨cut, member, qubit, after, before⟩ | ⟨cut, member, here, qubit⟩)
    · exact ⟨cut, member, qubit, after, by omega⟩
    · exact ⟨cut, member, qubit, by omega, by omega⟩

def Track.sever (qubits : List Int) (t : c.Track cuts) : c.Track cuts :=
  ⟨t.fragment.sever qubits, t.segments⟩

theorem Track.Sound.sever {count : Nat} {t : c.Track cuts} (sound : t.Sound count (count - 1)) :
    (t.sever (Fragment.cutQubits cuts count)).Sound count count where
  width := sound.width
  nonempty := sound.nonempty
  reached := sound.reached
  together := sound.together
  linked := sound.linked
  wires q := by
    have kept : q ∈ (t.sever (Fragment.cutQubits cuts count)).fragment.wires ↔
        q ∈ t.fragment.wires ∧ q ∉ Fragment.cutQubits cuts count := by
      simp [Track.sever, Fragment.sever]
    rw [kept, sound.wires]
    constructor
    · rintro ⟨⟨u, earlier, qubit, held, whole⟩, uncut⟩
      refine ⟨u, earlier, qubit, held, ?_⟩
      rw [severed_iff earlier]
      rintro (severed | cut)
      · exact whole severed
      · exact uncut cut
    · rintro ⟨u, earlier, qubit, held, whole⟩
      rw [severed_iff earlier, not_or] at whole
      exact ⟨⟨u, earlier, qubit, held, whole.1⟩, whole.2⟩

theorem Tracked.sever {count : Nat} {ts : List (c.Track cuts)}
    (tracked : Tracked count (count - 1) ts) :
    Tracked count count (ts.map (Track.sever (Fragment.cutQubits cuts count))) where
  sound t member := by
    obtain ⟨old, present, rfl⟩ := List.mem_map.mp member
    exact (tracked.sound old present).sever
  distinct := by
    rw [List.flatMap_map]
    exact tracked.distinct
  cover u earlier := by
    obtain ⟨t, present, held⟩ := tracked.cover u earlier
    exact ⟨_, List.mem_map_of_mem present, held⟩
  ordered := List.pairwise_map.mpr tracked.ordered

theorem Tracked.idle {count : Nat} {ts : List (c.Track cuts)} (tracked : Tracked count count ts)
    (idle : ∀ u : c.Use, u.position ≠ count) : Tracked (count + 1) count ts where
  sound t member := by
    have sound := tracked.sound t member
    have earlier : ∀ u : c.Use, u.position < count + 1 ↔ u.position < count := by
      intro u
      have other := idle u
      omega
    exact {
      width := sound.width
      nonempty := sound.nonempty
      reached := by simpa only [earlier] using sound.reached
      together := by simpa only [earlier] using sound.together
      linked := sound.linked
      wires := by simpa only [earlier] using sound.wires }
  distinct := tracked.distinct
  cover u earlier := by
    have other := idle u
    exact tracked.cover u (by omega)
  ordered := tracked.ordered

section Join

variable {count : Nat} {ts : List (c.Track cuts)}

theorem Track.Sound.wire_iff {t : c.Track cuts} (sound : t.Sound count count) {w : c.Use}
    (here : w.position = count) : w.qubit ∈ t.fragment.wires ↔ w.segment cuts ∈ t.segments := by
  rw [sound.wires]
  constructor
  · rintro ⟨u, earlier, qubit, held, whole⟩
    have same : u.segment cuts = w.segment cuts := by
      rw [segment_eq_of_le qubit (by omega), qubit, here]
      exact whole
    rwa [← same]
  · intro held
    obtain ⟨u, earlier, same⟩ := sound.reached _ held
    have qubit : u.qubit = w.qubit := (segment_eq_iff.mp same).1
    refine ⟨u, earlier, qubit, same ▸ held, ?_⟩
    rw [segment_eq_of_le qubit (by omega), qubit, here] at same
    exact same

theorem totalWidth_eq (widths : ∀ t ∈ ts, t.fragment.width = t.segments.length) :
    Fragment.totalWidth (ts.map Track.fragment) = (ts.flatMap Track.segments).length := by
  induction ts with
  | nil => rfl
  | cons t rest ih =>
      have first := widths t List.mem_cons_self
      have later := ih fun t' member => widths t' (List.mem_cons_of_mem t member)
      rw [List.map_cons, Fragment.totalWidth, List.flatMap_cons, List.length_append, first, later]

def joinedTrack (qubits : List Int) (opened : List (c.Segment cuts)) (ts : List (c.Track cuts)) :
    c.Track cuts :=
  ⟨Fragment.union qubits (ts.map Track.fragment),
    (ts.filter (·.fragment.meets qubits)).flatMap Track.segments ++ opened⟩

/-- The segments that an instruction opens: it uses them, and no fragment holds them. -/
def Opens (count : Nat) (ts : List (c.Track cuts)) (s : c.Segment cuts) : Prop :=
  (∃ w : c.Use, w.position = count ∧ w.segment cuts = s) ∧ ∀ t ∈ ts, s ∉ t.segments

variable {i : Instruction} (present : c.data[count]? = some i) (acting : i.isBarrier = false)
  (tracked : Tracked count count ts)

include present acting tracked

theorem Track.meets_iff {t : c.Track cuts} (member : t ∈ ts) :
    t.fragment.meets i.qubits = true ↔
      ∃ w : c.Use, w.position = count ∧ w.segment cuts ∈ t.segments := by
  have sound := tracked.sound t member
  simp only [Fragment.meets, List.any_eq_true, List.contains_iff_mem]
  constructor
  · rintro ⟨q, acted, held⟩
    exact ⟨⟨count, q, i, present, acting, acted⟩, rfl, (sound.wire_iff rfl).mp held⟩
  · rintro ⟨w, here, held⟩
    exact ⟨w.qubit, (Use.acts_of present here).2, (sound.wire_iff here).mpr held⟩

theorem exists_opened : ∃ opened : List (c.Segment cuts),
    opened.length = (Fragment.unopened i.qubits (ts.map Track.fragment)).length ∧
      opened.Nodup ∧ ∀ s, s ∈ opened ↔ Opens count ts s := by
  have unopened : ∀ q, q ∈ Fragment.unopened i.qubits (ts.map Track.fragment) ↔
      q ∈ i.qubits ∧ ∀ t ∈ ts, q ∉ t.fragment.wires := by
    simp [Fragment.unopened]
  have acted : ∀ q ∈ Fragment.unopened i.qubits (ts.map Track.fragment), q ∈ i.qubits :=
    fun q member => ((unopened q).mp member).1
  refine ⟨(Fragment.unopened i.qubits (ts.map Track.fragment)).pmap
    (fun q member => Use.segment cuts ⟨count, q, i, present, acting, member⟩) acted,
    List.length_pmap, ?_, ?_⟩
  · have qubits : (Fragment.unopened i.qubits (ts.map Track.fragment)).Nodup :=
      (c.fits i (List.mem_of_getElem? present)).1.1.filter _
    refine qubits.pmap fun p _ q _ same => ?_
    exact (segment_eq_iff.mp same).1
  · intro s
    rw [List.mem_pmap]
    constructor
    · rintro ⟨q, member, rfl⟩
      refine ⟨⟨_, rfl, rfl⟩, fun t held inside => ?_⟩
      exact ((unopened q).mp member).2 t held (((tracked.sound t held).wire_iff rfl).mpr inside)
    · rintro ⟨⟨w, here, rfl⟩, fresh⟩
      have free : w.qubit ∈ Fragment.unopened i.qubits (ts.map Track.fragment) := by
        refine (unopened _).mpr ⟨(Use.acts_of present here).2, fun t held open' => ?_⟩
        exact fresh t held (((tracked.sound t held).wire_iff here).mp open')
      refine ⟨w.qubit, free, ?_⟩
      congr 1
      exact Use.ext here.symm rfl

variable {opened : List (c.Segment cuts)} (opens : ∀ s, s ∈ opened ↔ Opens count ts s)

include opens

omit present acting tracked in
theorem mem_joinedTrack {qubits : List Int} {s : c.Segment cuts} :
    s ∈ (joinedTrack qubits opened ts).segments ↔
      (∃ t ∈ ts, t.fragment.meets qubits = true ∧ s ∈ t.segments) ∨ Opens count ts s := by
  rw [joinedTrack, List.mem_append, List.mem_flatMap, opens]
  simp [and_assoc]

theorem segment_mem_joinedTrack {w : c.Use} (here : w.position = count) :
    w.segment cuts ∈ (joinedTrack i.qubits opened ts).segments := by
  rw [mem_joinedTrack opens]
  by_cases held : ∃ t ∈ ts, w.segment cuts ∈ t.segments
  · obtain ⟨t, member, inside⟩ := held
    exact Or.inl ⟨t, member, (Track.meets_iff present acting tracked member).mpr
      ⟨w, here, inside⟩, inside⟩
  · exact Or.inr ⟨⟨w, here, rfl⟩, fun t member inside => held ⟨t, member, inside⟩⟩

omit present acting in
theorem earlier_mem_joinedTrack {qubits : List Int} {u : c.Use} (earlier : u.position < count) :
    u.segment cuts ∈ (joinedTrack qubits opened ts).segments ↔
      ∃ t ∈ ts, t.fragment.meets qubits = true ∧ u.segment cuts ∈ t.segments := by
  rw [mem_joinedTrack opens]
  refine or_iff_left ?_
  rintro ⟨-, fresh⟩
  obtain ⟨t, member, inside⟩ := tracked.cover u earlier
  exact fresh t member inside

/-- Every segment of the new fragment is joined to the segments that the instruction uses. -/
theorem cluster_joinedTrack {s : c.Segment cuts}
    (member : s ∈ (joinedTrack i.qubits opened ts).segments) {w : c.Use}
    (here : w.position = count) : s.cluster = w.cluster cuts := by
  rcases (mem_joinedTrack opens).mp member with ⟨t, listed, meets, inside⟩ | ⟨⟨v, there, rfl⟩, -⟩
  · obtain ⟨v, there, held⟩ := (Track.meets_iff present acting tracked listed).mp meets
    calc
      s.cluster = v.cluster cuts := (tracked.sound t listed).linked s inside _ held
      _ = w.cluster cuts := cluster_eq_of_position (there.trans here.symm)
  · exact cluster_eq_of_position (there.trans here.symm)

omit opens in
theorem Track.Sound.unmet {t : c.Track cuts} (member : t ∈ ts)
    (unmet : t.fragment.meets i.qubits = false) : t.Sound (count + 1) count := by
  have sound := tracked.sound t member
  have apart : ∀ u : c.Use, u.segment cuts ∈ t.segments → u.position ≠ count := by
    intro u inside here
    have meets := (Track.meets_iff present acting tracked member).mpr ⟨u, here, inside⟩
    rw [unmet] at meets
    cases meets
  refine ⟨sound.width, sound.nonempty, ?_, ?_, sound.linked, ?_⟩
  · intro s inside
    obtain ⟨u, earlier, same⟩ := sound.reached s inside
    exact ⟨u, by omega, same⟩
  · intro u v same earlier inside
    have other := apart u inside
    exact sound.together u v same (by omega) inside
  · intro q
    rw [sound.wires]
    constructor
    · rintro ⟨u, earlier, qubit, inside, whole⟩
      exact ⟨u, by omega, qubit, inside, whole⟩
    · rintro ⟨u, earlier, qubit, inside, whole⟩
      have other := apart u inside
      exact ⟨u, by omega, qubit, inside, whole⟩

theorem joinedTrack_wires (q : Int) :
    q ∈ (joinedTrack i.qubits opened ts).fragment.wires ↔
      ∃ u : c.Use, u.position < count + 1 ∧ u.qubit = q ∧
        u.segment cuts ∈ (joinedTrack i.qubits opened ts).segments ∧
          ¬Severed cuts q u.position count := by
  have listed : q ∈ (joinedTrack i.qubits opened ts).fragment.wires ↔
      (∃ t ∈ ts, t.fragment.meets i.qubits = true ∧ q ∈ t.fragment.wires) ∨
        (q ∈ i.qubits ∧ ∀ t ∈ ts, q ∉ t.fragment.wires) := by
    simp [joinedTrack, Fragment.union, Fragment.unopened, and_assoc]
  rw [listed]
  constructor
  · rintro (⟨t, member, meets, held⟩ | ⟨acted, -⟩)
    · obtain ⟨u, earlier, qubit, inside, whole⟩ := ((tracked.sound t member).wires q).mp held
      refine ⟨u, by omega, qubit, ?_, whole⟩
      exact (mem_joinedTrack opens).mpr (Or.inl ⟨t, member, meets, inside⟩)
    · refine ⟨⟨count, q, i, present, acting, acted⟩, by simp, rfl,
        segment_mem_joinedTrack present acting tracked opens rfl, ?_⟩
      rintro ⟨cut, -, -, after, before⟩
      exact absurd before (by simpa using after)
  · rintro ⟨u, earlier, rfl, inside, whole⟩
    by_cases here : u.position = count
    · by_cases held : ∃ t ∈ ts, u.qubit ∈ t.fragment.wires
      · obtain ⟨t, member, wire⟩ := held
        have meets := (Track.meets_iff present acting tracked member).mpr
          ⟨u, here, ((tracked.sound t member).wire_iff here).mp wire⟩
        exact Or.inl ⟨t, member, meets, wire⟩
      · exact Or.inr ⟨(Use.acts_of present here).2, fun t member wire => held ⟨t, member, wire⟩⟩
    · obtain ⟨t, member, meets, held⟩ :=
        (earlier_mem_joinedTrack tracked opens (by omega)).mp inside
      have wire := ((tracked.sound t member).wires u.qubit).mpr ⟨u, by omega, rfl, held, whole⟩
      exact Or.inl ⟨t, member, meets, wire⟩

omit present acting opens in
theorem joinedTrack_width {qubits : List Int}
    (size : opened.length = (Fragment.unopened qubits (ts.map Track.fragment)).length) :
    (joinedTrack qubits opened ts).fragment.width =
      (joinedTrack qubits opened ts).segments.length := by
  have met : Fragment.totalWidth ((ts.map Track.fragment).filter (·.meets qubits)) =
      ((ts.filter (·.fragment.meets qubits)).flatMap Track.segments).length := by
    rw [List.filter_map]
    apply totalWidth_eq
    intro t member
    exact (tracked.sound t (List.mem_filter.mp member).1).width
  rw [joinedTrack, List.length_append, size, ← met]
  rfl

theorem joinedTrack_sound (acts : i.qubits ≠ [])
    (size : opened.length = (Fragment.unopened i.qubits (ts.map Track.fragment)).length) :
    (joinedTrack i.qubits opened ts).Sound (count + 1) count := by
  obtain ⟨q, acted⟩ := List.exists_mem_of_ne_nil _ acts
  have here : ∀ w : c.Use, w.position = count →
      w.segment cuts ∈ (joinedTrack i.qubits opened ts).segments :=
    fun w => segment_mem_joinedTrack present acting tracked opens
  refine ⟨?_, ?_, ?_, ?_, ?_, joinedTrack_wires present acting tracked opens⟩
  · exact joinedTrack_width tracked size
  · exact List.ne_nil_of_mem (here ⟨count, q, i, present, acting, acted⟩ rfl)
  · intro s member
    rcases (mem_joinedTrack opens).mp member with ⟨t, listed, -, inside⟩ | ⟨⟨w, there, same⟩, -⟩
    · obtain ⟨u, earlier, same⟩ := (tracked.sound t listed).reached s inside
      exact ⟨u, by omega, same⟩
    · exact ⟨w, by omega, same⟩
  · intro u v same earlier inside
    by_cases there : u.position = count
    · exact here v (same.symm.trans there)
    · obtain ⟨t, member, meets, held⟩ :=
        (earlier_mem_joinedTrack tracked opens (by omega)).mp inside
      have other := (tracked.sound t member).together u v same (by omega) held
      exact (mem_joinedTrack opens).mpr (Or.inl ⟨t, member, meets, other⟩)
  · intro s member s' member'
    have first := cluster_joinedTrack present acting tracked opens member
      (w := ⟨count, q, i, present, acting, acted⟩) rfl
    have second := cluster_joinedTrack present acting tracked opens member'
      (w := ⟨count, q, i, present, acting, acted⟩) rfl
    exact first.trans second.symm

end Join

end Circuit
end QuasiCut
