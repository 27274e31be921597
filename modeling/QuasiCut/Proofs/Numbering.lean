import Mathlib
import QuasiCut.Basis.Standard
import QuasiCut.Proofs.JointWeights

/-! The numbers of configurations. Reading a number as digits and adding up the digits again, each with
its place value, are inverse to each other, so the numbers below the count stand for all choices. -/

namespace QuasiCut

namespace Configuration

variable {α : Type}

/-- The number of a choice: each digit times the product of the numbers of terms before it. -/
def number (bases : List (Basis α)) (chosen : List Nat) : Nat :=
  ∑ i ∈ Finset.range bases.length, chosen.getD i 0 * ((bases.take i).map Basis.numTerms).prod

def tuples : List (Basis α) → List (List Nat)
  | [] => [[]]
  | b :: bases => (tuples bases).flatMap fun chosen => (List.range b.numTerms).map (· :: chosen)

theorem number_cons (b : Basis α) (bases : List (Basis α)) (choice : Nat) (chosen : List Nat) :
    number (b :: bases) (choice :: chosen) = b.numTerms * number bases chosen + choice := by
  rw [number, number, List.length_cons, Finset.sum_range_succ', Finset.mul_sum]
  congr 1
  · apply Finset.sum_congr rfl
    intro i _
    rw [List.getD_cons_succ, List.take_succ_cons, List.map_cons, List.prod_cons, Nat.mul_left_comm]
  · simp

theorem number_digits {bases : List (Basis α)} {index : Nat} (inside : index < count bases) :
    number bases (digits bases index) = index := by
  induction bases generalizing index with
  | nil =>
      have zero : index = 0 := Nat.lt_one_iff.mp inside
      rw [zero]
      rfl
  | cons b bases ih =>
      rw [digits, number_cons, ih (Nat.div_lt_of_lt_mul inside), Nat.div_add_mod]

theorem number_lt {bases : List (Basis α)} {chosen : List Nat}
    (admissible : Admissible bases chosen) : number bases chosen < count bases := by
  induction bases generalizing chosen with
  | nil => exact Nat.one_pos
  | cons b bases ih =>
      cases chosen with
      | nil => exact admissible.elim
      | cons choice chosen =>
          have later := ih admissible.2
          rw [number_cons, count]
          calc
            b.numTerms * number bases chosen + choice <
                b.numTerms * number bases chosen + b.numTerms := by
              exact Nat.add_lt_add_left admissible.1 _
            _ = b.numTerms * (number bases chosen + 1) := (Nat.mul_succ _ _).symm
            _ ≤ b.numTerms * count bases := Nat.mul_le_mul_left _ later

theorem digits_number {bases : List (Basis α)} {chosen : List Nat}
    (admissible : Admissible bases chosen) : digits bases (number bases chosen) = chosen := by
  induction bases generalizing chosen with
  | nil =>
      cases chosen with
      | nil => rfl
      | cons choice chosen => exact admissible.elim
  | cons b bases ih =>
      cases chosen with
      | nil => exact admissible.elim
      | cons choice chosen => rw [number_cons, digits_cons bases _ admissible.1, ih admissible.2]

section Choices

variable {bases : List (Basis α)}

theorem choices_refused {index : Int} (outside : ¬(0 ≤ index ∧ index < count bases)) :
    choices bases index = .error (.configurationOutOfRange index (count bases)) :=
  if_neg outside

theorem choices_eq_ok_iff {index : Int} {chosen : List Nat} :
    choices bases index = .ok chosen ↔
      Admissible bases chosen ∧ index = number bases chosen := by
  constructor
  · intro read
    by_cases inside : 0 ≤ index ∧ index < count bases
    · obtain ⟨place, rfl⟩ := Int.eq_ofNat_of_zero_le inside.1
      have below : place < count bases := by omega
      rw [choices_natCast below] at read
      cases read
      rw [number_digits below]
      exact ⟨digits_admissible below, rfl⟩
    · rw [choices_refused inside] at read
      cases read
  · rintro ⟨admissible, rfl⟩
    rw [choices_natCast (number_lt admissible), digits_number admissible]

theorem choices_bijOn (bases : List (Basis α)) :
    Set.BijOn (choices bases) (Set.Ico 0 (count bases : Int))
      (Except.ok '' {chosen | Admissible bases chosen}) := by
  have read : ∀ index ∈ Set.Ico 0 (count bases : Int),
      ∃ chosen, choices bases index = .ok chosen := by
    rintro index ⟨low, high⟩
    obtain ⟨place, rfl⟩ := Int.eq_ofNat_of_zero_le low
    exact ⟨_, choices_natCast (Int.ofNat_lt.mp high)⟩
  refine ⟨?_, ?_, ?_⟩
  · intro index inside
    obtain ⟨chosen, returned⟩ := read index inside
    exact ⟨chosen, (choices_eq_ok_iff.mp returned).1, returned.symm⟩
  · intro index inside other _ same
    obtain ⟨chosen, returned⟩ := read index inside
    have returned' : choices bases other = .ok chosen := same.symm.trans returned
    exact (choices_eq_ok_iff.mp returned).2.trans (choices_eq_ok_iff.mp returned').2.symm
  · rintro _ ⟨chosen, admissible, rfl⟩
    refine ⟨number bases chosen, ⟨Int.natCast_nonneg _, ?_⟩, ?_⟩
    · exact Int.ofNat_lt.mpr (number_lt admissible)
    · exact choices_eq_ok_iff.mpr ⟨admissible, rfl⟩

end Choices

theorem digits_of_four {bases : List (Basis α)} (four : ∀ b ∈ bases, b.numTerms = 4)
    (index start : Nat) :
    digits bases (index >>> (2 * start)) =
      (List.range' start bases.length).map fun i => (index >>> (2 * i)) &&& 3 := by
  induction bases generalizing start with
  | nil => rfl
  | cons b bases ih =>
      have later := ih (fun b' member => four b' (List.mem_cons_of_mem b member)) (start + 1)
      rw [digits, four b List.mem_cons_self, List.length_cons, List.range'_succ, List.map_cons,
        ← later, mod_four, shiftRight_div_four]

section Tuples

theorem tuples_eq (bases : List (Basis α)) :
    (List.range (count bases)).map (digits bases) = tuples bases := by
  induction bases with
  | nil => rfl
  | cons b bases ih => rw [map_digits_cons, ih, tuples]

theorem mem_tuples {bases : List (Basis α)} {chosen : List Nat} :
    chosen ∈ tuples bases ↔ Admissible bases chosen := by
  rw [← tuples_eq, List.mem_map]
  constructor
  · rintro ⟨index, ranged, rfl⟩
    exact digits_admissible (List.mem_range.mp ranged)
  · intro admissible
    exact ⟨number bases chosen, List.mem_range.mpr (number_lt admissible),
      digits_number admissible⟩

theorem tuples_nodup (bases : List (Basis α)) : (tuples bases).Nodup := by
  rw [← tuples_eq]
  apply List.Nodup.map_on _ List.nodup_range
  intro index ranged other ranged' same
  rw [← number_digits (List.mem_range.mp ranged), same, number_digits (List.mem_range.mp ranged')]

end Tuples

/-- The numbers below the count stand for the choices of one term from each basis, one for one, and a
choice has the number that its digits add up to. Every other number is refused. Where all bases have
four terms, the digits are pairs of bits. So the enumeration goes through every choice once, the first
digit varying fastest. -/
theorem choices_bijective {α ν : Type} [One α] [Mul α] (read : ν → Except Fault α)
    (bases : List (Basis α)) :
    Set.BijOn (choices bases) (Set.Ico 0 (count bases : Int))
      (Except.ok '' {chosen | Admissible bases chosen}) ∧
    (∀ index chosen, choices bases index = .ok chosen ↔
      Admissible bases chosen ∧ index = number bases chosen) ∧
    (∀ index ∉ Set.Ico 0 (count bases : Int),
      ∃ fault, choices bases index = .error fault ∧ fault.kind = .value) ∧
    ((∀ b ∈ bases, b.numTerms = 4) → ∀ index : Nat, index < count bases →
      choices bases index =
        .ok ((List.range bases.length).map fun i => (index >>> (2 * i)) &&& 3)) ∧
    ((∀ b ∈ bases, b.Obtained read) →
      ∃ entries, (enumerate bases).outcome = .ok entries ∧
        entries.map Prod.fst = tuples bases ∧ (entries.map Prod.fst).Nodup ∧
          ∀ chosen, chosen ∈ entries.map Prod.fst ↔ Admissible bases chosen) := by
  refine ⟨choices_bijOn bases, fun index chosen => choices_eq_ok_iff, ?_, ?_, ?_⟩
  · intro index outside
    exact ⟨_, choices_refused outside, rfl⟩
  · intro four index inside
    have bits := digits_of_four four index 0
    rw [Nat.mul_zero, Nat.shiftRight_zero, ← List.range_eq_range'] at bits
    rw [choices_natCast inside, bits]
  · intro obtained
    obtain ⟨entries, listed, numbered⟩ :=
      enumerate_returns fun b member => (obtained b member).balanced
    rw [tuples_eq] at numbered
    refine ⟨entries, listed, numbered, ?_, ?_⟩
    · rw [numbered]
      exact tuples_nodup bases
    · intro chosen
      rw [numbered]
      exact mem_tuples

theorem uneven_numbered :
    (∀ b ∈ [paired, tripled], b.Obtained Except.ok) ∧
    (∃ entries, (enumerate [paired, tripled]).outcome = .ok entries ∧
      entries.map Prod.fst = [[0, 0], [1, 0], [0, 1], [1, 1], [0, 2], [1, 2]]) ∧
    choices [paired, tripled] (number [paired, tripled] [1, 2]) = .ok [1, 2] ∧
    (∃ fault, choices [paired, tripled] 6 = .error fault ∧ fault.kind = .value) ∧
    (∀ b ∈ [Basis.wire (α := ℚ), Basis.cz], b.numTerms = 4) ∧
    choices [Basis.wire (α := ℚ), Basis.cz] 11 = .ok [3, 2] := by
  have obtained : ∀ b ∈ [paired, tripled], b.Obtained Except.ok := by
    intro b member
    rcases List.mem_pair.mp member with same | same
    · exact ⟨paired.terms, paired.coeffs, paired, [], rfl, same⟩
    · exact ⟨tripled.terms, tripled.coeffs, tripled, [], rfl, same⟩
  have four : ∀ b ∈ [Basis.wire (α := ℚ), Basis.cz], b.numTerms = 4 := by
    decide
  rcases choices_bijective Except.ok [paired, tripled] with ⟨-, numbers, outside, -, lists⟩
  rcases lists obtained with ⟨entries, listed, numbered, -⟩
  refine ⟨obtained, ⟨entries, listed, numbered⟩, ?_, ?_, four, ?_⟩
  · exact (numbers _ [1, 2]).mpr ⟨⟨by decide, by decide, trivial⟩, rfl⟩
  · exact outside 6 (by decide)
  · exact (choices_bijective Except.ok [Basis.wire (α := ℚ), Basis.cz]).2.2.2.1 four 11
      (by decide)

end Configuration
end QuasiCut
