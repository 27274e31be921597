import Mathlib
import QuasiCut.Proofs.BasisHistory
import QuasiCut.Proofs.GateExpansion
import QuasiCut.Proofs.Numbering
import QuasiCut.Proofs.SplitPairs

/-! Sides on distinct qubits. Local operations that are put side by side on distinct qubits can be read
apart by the qubits alone. So a located term shows the sides it was made of, and the preparations of a
configuration show which terms were chosen. -/

namespace QuasiCut

namespace Instruction

def along (q : Int) (data : List Instruction) : List Instruction :=
  data.filter fun i => q ∈ i.qubits

def sidesOn (qubits : List Int) (data : List Instruction) : List Side :=
  qubits.map fun q => (along q data).map name

def spread (qubits : List Int) (sides : List Side) : List Instruction :=
  (qubits.zip sides).flatMap fun (q, side) => side.map fun name => single name q

theorem along_append (q : Int) (front back : List Instruction) :
    along q (front ++ back) = along q front ++ along q back :=
  List.filter_append ..

theorem spread_cons (q : Int) (qubits : List Int) (side : Side) (sides : List Side) :
    spread (q :: qubits) (side :: sides) = spread [q] [side] ++ spread qubits sides := by
  simp [spread]

theorem mem_spread {qubits : List Int} {sides : List Side} {i : Instruction}
    (member : i ∈ spread qubits sides) : ∃ q ∈ qubits, i = single i.name q := by
  obtain ⟨entry, listed, placed⟩ := List.mem_flatMap.mp member
  obtain ⟨name, -, rfl⟩ := List.mem_map.mp placed
  exact ⟨entry.1, (List.of_mem_zip listed).1, rfl⟩

theorem along_spread_self (q : Int) (side : Side) :
    (along q (spread [q] [side])).map name = side := by
  simp [along, spread, single, List.filter_map, Function.comp_def]

theorem along_spread_fresh {q : Int} {qubits : List Int} (fresh : q ∉ qubits)
    (sides : List Side) : along q (spread qubits sides) = [] := by
  rw [along, List.filter_eq_nil_iff]
  intro i member
  obtain ⟨q', listed, same⟩ := mem_spread member
  have apart : q ≠ q' := fun equal => fresh (equal ▸ listed)
  rw [same]
  simpa [single] using apart

theorem sidesOn_spread {qubits : List Int} (distinct : qubits.Nodup) {sides : List Side}
    (length : sides.length = qubits.length) : sidesOn qubits (spread qubits sides) = sides := by
  induction qubits generalizing sides with
  | nil => exact (List.length_eq_zero_iff.mp length).symm
  | cons q qubits ih =>
      cases sides with
      | nil => cases length
      | cons side sides =>
          -- The later sides leave the first qubit alone, and the first side leaves the later qubits.
          have fresh : q ∉ qubits := (List.nodup_cons.mp distinct).1
          have first : (along q (spread (q :: qubits) (side :: sides))).map name = side := by
            rw [spread_cons, along_append, along_spread_fresh fresh, List.append_nil,
              along_spread_self]
          have others : sidesOn qubits (spread (q :: qubits) (side :: sides)) =
              sidesOn qubits (spread qubits sides) := by
            apply List.map_congr_left
            intro q' listed
            have apart : q' ∉ [q] := by
              rw [List.mem_singleton]
              exact fun equal => fresh (equal ▸ listed)
            rw [spread_cons, along_append, along_spread_fresh apart, List.nil_append]
          calc
            sidesOn (q :: qubits) (spread (q :: qubits) (side :: sides)) =
                (along q (spread (q :: qubits) (side :: sides))).map name ::
                  sidesOn qubits (spread (q :: qubits) (side :: sides)) := rfl
            _ = side :: sidesOn qubits (spread qubits sides) := by rw [first, others]
            _ = side :: sides := by rw [ih distinct.of_cons (Nat.succ.inj length)]

end Instruction

namespace Basis

variable {α ν : Type} {read : ν → Except Fault α} {b : Basis α} {qubits : List Int}

def numSides (b : Basis α) : Nat := (b.terms.headD []).length

theorem WellFormed.length_eq (wellFormed : b.WellFormed) {term : Term} (member : term ∈ b.terms) :
    term.length = b.numSides := by
  obtain ⟨sides, -, same⟩ := wellFormed.sides
  have first : b.numSides = sides := by
    cases listed : b.terms with
    | nil => exact absurd listed wellFormed.nonempty
    | cons head rest =>
        rw [numSides, listed]
        exact same head (listed ▸ List.mem_cons_self)
  rw [first, same term member]

theorem locateTerm_refused {term : Term} (uneven : term.length ≠ qubits.length) :
    ∃ fault, locateTerm term qubits = .error fault ∧ fault.kind = .value := by
  rw [locateTerm, Lockstep.zip, Lockstep.check_pair, if_neg uneven.symm]
  by_cases few : qubits.length < term.length
  · rw [if_pos few]
    exact ⟨.longerArgument 2, rfl, rfl⟩
  · rw [if_neg few]
    exact ⟨.shorterArgument 2, rfl, rfl⟩

theorem locate_refused (wellFormed : b.WellFormed) (uneven : b.numSides ≠ qubits.length) :
    ∃ fault, b.locate qubits = .error fault ∧ fault.kind = .value := by
  have counted := wellFormed.coeffs
  cases listed : b.terms with
  | nil => exact absurd listed wellFormed.nonempty
  | cons term terms =>
      cases numbers : b.coeffs with
      | nil =>
          rw [numTerms, listed, numbers] at counted
          cases counted
      | cons coeff coeffs =>
          have length := wellFormed.length_eq (listed ▸ List.mem_cons_self)
          obtain ⟨fault, refused, kind⟩ := locateTerm_refused (length.trans_ne uneven)
          refine ⟨fault, ?_, kind⟩
          simp only [locate, listed, numbers, List.zip_cons_cons, List.mapM_cons, refused, bind,
            Except.bind]

/-- The operations of a term act on one of the qubits each, and what is done on each qubit is its side
of the term. -/
structure Places (qubits : List Int) (term : Term) (operations : List Instruction) : Prop where
  alone : ∀ i ∈ operations, ∃ q ∈ qubits, i = Instruction.single i.name q
  sides : Instruction.sidesOn qubits operations = term

theorem places_spread (distinct : qubits.Nodup) {term : Term}
    (length : term.length = qubits.length) :
    Places qubits term (Instruction.spread qubits term) :=
  ⟨fun _ member => Instruction.mem_spread member, Instruction.sidesOn_spread distinct length⟩

theorem placed_weights (balanced : b.Balanced) :
    (b.placed qubits).map GateTerm.weight = b.coeffs := by
  rw [placed, List.map_map]
  exact List.map_snd_zip balanced.le

theorem placed_operations (balanced : b.Balanced) :
    (b.placed qubits).map GateTerm.operations = b.terms.map (Instruction.spread qubits) := by
  calc
    (b.placed qubits).map GateTerm.operations =
        ((b.terms.zip b.coeffs).map Prod.fst).map (Instruction.spread qubits) := by
      rw [placed, List.map_map, List.map_map]
      rfl
    _ = b.terms.map (Instruction.spread qubits) := by rw [List.map_fst_zip balanced.ge]

theorem placed_places (wellFormed : b.WellFormed) (even : b.numSides = qubits.length)
    (distinct : qubits.Nodup) :
    List.Forall₂ (Places qubits) b.terms ((b.placed qubits).map GateTerm.operations) := by
  rw [placed_operations wellFormed.balanced, List.forall₂_map_right_iff, List.forall₂_same]
  intro term member
  exact places_spread distinct ((wellFormed.length_eq member).trans even)

/-- A basis is located on qubits exactly if it has a side for each. Every term then keeps its place and
its coefficient, and each side of it stands on its own qubit. -/
theorem locate_places_sides {α ν : Type} (read : ν → Except Fault α) (b : Basis α)
    (obtained : b.Obtained read) (qubits : List Int) (distinct : qubits.Nodup) :
    ((∃ located, b.locate qubits = .ok located) ↔ b.numSides = qubits.length) ∧
    (b.numSides ≠ qubits.length →
      ∃ fault, b.locate qubits = .error fault ∧ fault.kind = .value) ∧
    ∀ located, b.locate qubits = .ok located →
      located.length = b.numTerms ∧ located.map GateTerm.weight = b.coeffs ∧
        List.Forall₂ (Places qubits) b.terms (located.map GateTerm.operations) := by
  have wellFormed := obtained.wellFormed
  have returned : b.numSides = qubits.length → b.locate qubits = .ok (b.placed qubits) := by
    intro even
    apply locate_eq_placed wellFormed.balanced
    intro term member
    exact (wellFormed.length_eq member).trans even
  have even : ∀ located, b.locate qubits = .ok located → b.numSides = qubits.length := by
    intro located done
    by_contra uneven
    obtain ⟨fault, refused, -⟩ := locate_refused wellFormed uneven
    rw [refused] at done
    cases done
  refine ⟨⟨?_, fun same => ⟨_, returned same⟩⟩, locate_refused wellFormed, ?_⟩
  · rintro ⟨located, done⟩
    exact even located done
  · intro located done
    have same := even located done
    rw [returned same] at done
    cases done
    have placed := placed_places wellFormed same distinct
    have length := placed.length_eq
    rw [List.length_map] at length
    exact ⟨length.symm, placed_weights wellFormed.balanced, placed⟩

def lopsided : Basis ℚ where
  terms := [[[], ["h", "s"]], [["x"], []], [["z", "h", "z"], ["x"]]]
  coeffs := [1 / 2, -1 / 3, 2]

theorem lopsided_located :
    lopsided.Obtained Except.ok ∧
    (∃ located, lopsided.locate [7, 2] = .ok located ∧
      located.map GateTerm.weight = [1 / 2, -1 / 3, 2] ∧
        List.Forall₂ (Places [7, 2]) lopsided.terms (located.map GateTerm.operations)) ∧
    ∃ fault, lopsided.locate [7, 2, 5] = .error fault ∧ fault.kind = .value := by
  have obtained : lopsided.Obtained Except.ok :=
    ⟨lopsided.terms, lopsided.coeffs, lopsided, [], rfl, rfl⟩
  have two := locate_places_sides Except.ok lopsided obtained [7, 2] (by decide)
  have three := locate_places_sides Except.ok lopsided obtained [7, 2, 5] (by decide)
  obtain ⟨located, done⟩ := two.1.mpr rfl
  exact ⟨obtained, ⟨located, done, (two.2.2 located done).2⟩, three.2.1 (by decide)⟩

end Basis

namespace WireCut

def preparation (term : Nat) : Side := (Basis.wire : Basis ℚ).side term 0

theorem preparation_injective {term other : Nat} (inside : term < 4) (inside' : other < 4)
    (same : preparation term = preparation other) : term = other := by
  have distinct : ∀ term < 4, ∀ other < 4, preparation term = preparation other → term = other := by
    decide
  exact distinct term inside other inside' same

theorem operations_eq_spread (qubits : List Int) (chosen : List Nat) :
    (operations 0 (qubits.zip ((bases qubits : List (Basis ℚ)).zip chosen))).map
      LocalOp.instruction = Instruction.spread qubits (chosen.map preparation) := by
  induction qubits generalizing chosen with
  | nil => rfl
  | cons q qubits ih =>
      cases chosen with
      | nil => rfl
      | cons term chosen =>
          rw [List.map_cons, Instruction.spread_cons, ← ih chosen]
          simp [operations, bases, Instruction.spread, preparation, LocalOp.instruction]

variable {cuts : List WireCut} {index other : Nat}

theorem sidesOn_configured (distinct : (cuts.map qubit).Nodup) (inside : index < 4 ^ cuts.length) :
    Instruction.sidesOn (cuts.map qubit) ((configured 0 cuts index).map LocalOp.instruction) =
      (Configuration.digits (bases (cuts.map qubit) : List (Basis ℚ)) index).map preparation := by
  have chosen := Configuration.digits_admissible (lt_count_bases ℚ inside)
  rw [← operations_eq_configured ℚ, operations_eq_spread]
  apply Instruction.sidesOn_spread distinct
  rw [List.length_map, chosen.length_eq, bases, List.length_map]

theorem chosen_eq_of_preparations {κ : Type} {qubits : List κ} {chosen chosen' : List Nat}
    (admissible : Configuration.Admissible (bases qubits : List (Basis ℚ)) chosen)
    (admissible' : Configuration.Admissible (bases qubits : List (Basis ℚ)) chosen')
    (same : chosen.map preparation = chosen'.map preparation) : chosen = chosen' := by
  induction qubits generalizing chosen chosen' with
  | nil =>
      have empty := List.length_eq_zero_iff.mp admissible.length_eq
      have empty' := List.length_eq_zero_iff.mp admissible'.length_eq
      rw [empty, empty']
  | cons qubit qubits ih =>
      cases chosen with
      | nil => exact admissible.elim
      | cons term chosen =>
          cases chosen' with
          | nil => exact admissible'.elim
          | cons term' chosen' =>
              have parts := List.cons.inj same
              rw [preparation_injective admissible.1 admissible'.1 parts.1,
                ih admissible.2 admissible'.2 parts.2]

theorem exists_along_ne (distinct : (cuts.map qubit).Nodup) (inside : index < 4 ^ cuts.length)
    (inside' : other < 4 ^ cuts.length) (apart : index ≠ other) :
    ∃ cut ∈ cuts,
      Instruction.along cut.qubit ((configured 0 cuts index).map LocalOp.instruction) ≠
        Instruction.along cut.qubit ((configured 0 cuts other).map LocalOp.instruction) := by
  by_contra alike
  push Not at alike
  have same : Instruction.sidesOn (cuts.map qubit)
      ((configured 0 cuts index).map LocalOp.instruction) =
      Instruction.sidesOn (cuts.map qubit) ((configured 0 cuts other).map LocalOp.instruction) := by
    apply List.map_congr_left
    intro q listed
    obtain ⟨cut, member, rfl⟩ := List.mem_map.mp listed
    rw [alike cut member]
  rw [sidesOn_configured distinct inside, sidesOn_configured distinct inside'] at same
  have below := lt_count_bases ℚ inside
  have below' := lt_count_bases ℚ inside'
  have chosen := chosen_eq_of_preparations (Configuration.digits_admissible below)
    (Configuration.digits_admissible below') same
  apply apart
  rw [← Configuration.number_digits below, chosen, Configuration.number_digits below']

end WireCut

namespace Circuit

section

variable {α : Type} [One α] [Mul α] [Coefficient α] {c : Circuit} {cuts : List WireCut}

theorem splitPair_before (accepted : c.checkCuts cuts = .ok ()) {index : Nat}
    (inside : index < 4 ^ cuts.length) :
    ∃ pair : SplitPair α, c.splitPair cuts index = .ok pair ∧
      pair.before.data = c.data.take (c.splitAt cuts) ++
        (WireCut.configured 0 cuts index).map LocalOp.instruction := by
  obtain ⟨coeff, inserted⟩ := WireCut.insertion_configured α inside
  obtain ⟨pair, made, -, before, -⟩ :=
    splitPair_of_insertion (checkCuts_eq_ok_iff.mp accepted) inserted
  exact ⟨pair, made, before⟩

theorem cutWires_along_ne (distinct : (cuts.map WireCut.qubit).Nodup) {workers : Option Number}
    (staffed : ∀ number ∈ workers, number.atLeast 1 = true)
    (accepted : c.checkCuts cuts = .ok ()) :
    ∃ pairs : List (SplitPair α), (c.cutWires cuts workers).outcome = .ok pairs ∧
      pairs.length = 4 ^ cuts.length ∧
        pairs.Pairwise fun pair pair' => ∃ cut ∈ cuts,
          Instruction.along cut.qubit pair.before.data ≠
            Instruction.along cut.qubit pair'.before.data := by
  obtain ⟨pairs, returned, split⟩ := exists_mapM_ok fun index member =>
    splitPair_before (α := α) accepted (List.mem_range.mp member)
  have length : pairs.length = 4 ^ cuts.length := by rw [← split.length_eq, List.length_range]
  refine ⟨pairs, (cutWires_outcome staffed accepted).trans returned, length, ?_⟩
  rw [List.pairwise_iff_getElem]
  intro i j inside inside' earlier
  have first := split.get (by rwa [List.length_range, ← length]) inside
  have second := split.get (by rwa [List.length_range, ← length]) inside'
  simp only [List.get_eq_getElem, List.getElem_range] at first second
  rw [length] at inside inside'
  obtain ⟨cut, member, apart⟩ := WireCut.exists_along_ne distinct inside inside' earlier.ne
  refine ⟨cut, member, ?_⟩
  rw [first, second, Instruction.along_append, Instruction.along_append]
  exact fun same => apart (List.append_cancel_left same)

end

/-- Where the cuts are on distinct qubits, no two configurations prepare the same states. So the first
circuits of all pairs differ, and they do so on some severed qubit, not only in the order of instructions
on different qubits. -/
theorem configurations_distinct (α : Type) [One α] [Mul α] [Coefficient α] (cuts : List WireCut)
    (distinct : (cuts.map WireCut.qubit).Nodup) :
    (∀ index other : Nat, index < 4 ^ cuts.length → other < 4 ^ cuts.length → index ≠ other →
      ∃ inserted inserted' : Insertion Int α,
        WireCut.insertion cuts index = .ok inserted ∧
          WireCut.insertion cuts other = .ok inserted' ∧ inserted.before ≠ inserted'.before) ∧
    ∀ (c : Circuit) (workers : Option Number), (∀ number ∈ workers, number.atLeast 1 = true) →
      c.checkCuts cuts = .ok () →
        ∃ pairs : List (SplitPair α), (c.cutWires cuts workers).outcome = .ok pairs ∧
          pairs.length = 4 ^ cuts.length ∧ (pairs.map SplitPair.before).Nodup ∧
            pairs.Pairwise fun pair pair' => ∃ cut ∈ cuts,
              Instruction.along cut.qubit pair.before.data ≠
                Instruction.along cut.qubit pair'.before.data := by
  constructor
  · intro index other inside inside' apart
    obtain ⟨coeff, inserted⟩ := WireCut.insertion_configured α inside
    obtain ⟨coeff', inserted'⟩ := WireCut.insertion_configured α inside'
    obtain ⟨cut, -, differs⟩ := WireCut.exists_along_ne distinct inside inside' apart
    refine ⟨_, _, inserted, inserted', fun same => differs ?_⟩
    exact congrArg (fun ops : List (LocalOp Int) =>
      Instruction.along cut.qubit (ops.map LocalOp.instruction)) same
  · intro c workers staffed accepted
    obtain ⟨pairs, returned, length, differ⟩ := cutWires_along_ne (α := α) distinct staffed accepted
    refine ⟨pairs, returned, length, ?_, differ⟩
    rw [List.Nodup, List.pairwise_map]
    apply differ.imp
    rintro pair pair' ⟨cut, -, apart⟩ same
    exact apart (congrArg (fun part : Circuit => Instruction.along cut.qubit part.data) same)

-- On one qubit, a flip for the first cut and none for the second is the same as none and a flip.
example : WireCut.configured 0 [⟨1, 0⟩, ⟨2, 0⟩] 1 = WireCut.configured 0 [⟨1, 0⟩, ⟨2, 0⟩] 4 := by
  decide

theorem entangled_distinct :
    ([⟨2, 1⟩, ⟨1, 0⟩] : List WireCut).map WireCut.qubit = [1, 0] ∧
    (∃ inserted inserted' : Insertion Int Binary64,
      WireCut.insertion [⟨2, 1⟩, ⟨1, 0⟩] 2 = .ok inserted ∧
        WireCut.insertion [⟨2, 1⟩, ⟨1, 0⟩] 3 = .ok inserted' ∧
          inserted.before ≠ inserted'.before) ∧
    entangled.checkCuts [⟨2, 1⟩, ⟨1, 0⟩] = .ok () ∧
    ∃ pairs : List (SplitPair Binary64),
      (entangled.cutWires [⟨2, 1⟩, ⟨1, 0⟩] (some (.integer 3))).outcome = .ok pairs ∧
        pairs.length = 16 ∧ (pairs.map SplitPair.before).Nodup := by
  have apart := configurations_distinct Binary64 [⟨2, 1⟩, ⟨1, 0⟩] (by decide)
  have accepted : entangled.checkCuts [⟨2, 1⟩, ⟨1, 0⟩] = .ok () := by decide
  obtain ⟨pairs, returned, length, nodup, -⟩ :=
    apart.2 entangled (some (.integer 3)) (by decide) accepted
  exact ⟨rfl, apart.1 2 3 (by decide) (by decide) (by decide), accepted, pairs, returned, length,
    nodup⟩

end Circuit

end QuasiCut
