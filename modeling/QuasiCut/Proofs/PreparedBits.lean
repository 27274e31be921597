import Mathlib
import QuasiCut.Forging

/-! Prepared bitstrings. A prepared circuit flips the listed qubits whose bit is set, so the bits can be
read back at those qubits, as far as the list reaches. It can be prepared exactly if a register can
have as many qubits. -/

namespace QuasiCut

namespace Register

def Sized (size : Int) : Prop := 0 ≤ size ∧ size < 2 ^ 32

theorem make_of_sized {size : Int} (sized : Sized size) (name : String) :
    make name size = .ok ⟨name, size.toNat⟩ := by
  have low : 0 ≤ size := sized.1
  have high : size < 2 ^ 32 := sized.2
  have word : isWordSized size = true := by
    apply decide_eq_true
    simp only [Nat.pow_eq]
    omega
  have small : ¬Nat.pow 2 32 ≤ size.toNat := by
    rw [Nat.pow_eq]
    omega
  rw [make, word, if_neg (by decide), if_neg (Int.not_lt.mpr low), if_neg small]

theorem sized_of_make {size : Int} {name : String} {register : Register}
    (made : make name size = .ok register) : Sized size := by
  unfold make at made
  split at made
  · cases made
  · split at made
    · cases made
    · next low =>
        split at made
        · cases made
        · next high =>
            rw [Nat.pow_eq] at high
            exact ⟨by omega, by omega⟩

theorem whole_of_sized {size : Int} (sized : Sized size) (name : String) :
    ∃ registers, whole name size = .ok registers ∧ (total registers : Int) = size := by
  by_cases none : size = 0
  · exact ⟨[], if_pos none, none.symm⟩
  · refine ⟨[⟨name, size.toNat⟩], ?_, Int.toNat_of_nonneg sized.1⟩
    rw [whole, if_neg none, make_of_sized sized]
    rfl

theorem sized_of_whole {size : Int} {name : String} {registers : List Register}
    (made : whole name size = .ok registers) : Sized size := by
  unfold whole at made
  split at made
  · next none =>
      rw [none]
      exact ⟨le_rfl, by norm_num⟩
  · cases single : make name size with
    | error fault =>
        rw [single] at made
        cases made
    | ok register => exact sized_of_make single

end Register

theorem Circuit.onBits_of_sized {size : Int} (sized : Register.Sized size) :
    ∃ qregs, onBits size 0 = .ok (empty qregs []) ∧ (Register.total qregs : Int) = size := by
  rcases Register.whole_of_sized sized "q" with ⟨qregs, made, total⟩
  refine ⟨qregs, ?_, total⟩
  rw [onBits, made]
  rfl

theorem Circuit.sized_of_onBits {size : Int} {blank : Circuit}
    (made : onBits size 0 = .ok blank) : Register.Sized size := by
  cases whole : Register.whole "q" size with
  | error fault =>
      rw [onBits, whole] at made
      cases made
  | ok registers => exact Register.sized_of_whole whole

section Flips

variable {bits place : Nat} {qubits : List Int}

theorem lt_span {qubit : Int} (listed : qubit ∈ qubits) : qubit < span qubits := by
  unfold span
  cases largest : qubits.max? with
  | none =>
      rw [List.max?_eq_none_iff] at largest
      rw [largest] at listed
      cases listed
  | some top =>
      have bound := (List.max?_eq_some_iff.mp largest).2 qubit listed
      rw [Option.getD_some]
      omega

def flipped (bits : Nat) (qubits : List Int) : List Int :=
  (qubits.zipIdx.filter fun entry => bits.testBit entry.2).map Prod.fst

theorem setQubitsFrom_eq (bits place : Nat) (qubits : List Int) :
    setQubitsFrom bits place qubits =
      ((qubits.zipIdx place).filter fun entry => bits.testBit entry.2).map Prod.fst := by
  induction qubits generalizing place with
  | nil => rfl
  | cons qubit rest ih =>
      rw [setQubitsFrom, ih, List.zipIdx_cons, List.filter_cons]
      split
      · rfl
      · rfl

theorem setQubitsFrom_sublist (bits place : Nat) (qubits : List Int) :
    (setQubitsFrom bits place qubits).Sublist qubits := by
  have filtered := ((qubits.zipIdx place).filter_sublist
    (p := fun entry => bits.testBit entry.2)).map Prod.fst
  rw [List.zipIdx_map_fst] at filtered
  rw [setQubitsFrom_eq]
  exact filtered

theorem mem_setQubitsFrom_cons {qubit first : Int} {rest : List Int} :
    qubit ∈ setQubitsFrom bits place (first :: rest) ↔
      qubit = first ∧ bits.testBit place = true ∨
        qubit ∈ setQubitsFrom bits (place + 1) rest := by
  rw [setQubitsFrom]
  split
  · next set => simp [set]
  · next clear => simp [clear]

theorem setQubitsFrom_mod {count : Nat} (enough : place + qubits.length ≤ count) (bits : Nat) :
    setQubitsFrom (bits % 2 ^ count) place qubits = setQubitsFrom bits place qubits := by
  induction qubits generalizing place with
  | nil => rfl
  | cons qubit rest ih =>
      rw [List.length_cons] at enough
      have inside : place < count := by omega
      have later := ih (by omega : place + 1 + rest.length ≤ count)
      rw [setQubitsFrom, setQubitsFrom, later, Nat.testBit_mod_two_pow, decide_eq_true inside,
        Bool.true_and]

end Flips

def toggle (state : Int → Bool) (i : Instruction) : Int → Bool :=
  fun qubit => state qubit ^^ decide (qubit ∈ i.qubits)

/-- The state after all gates, if every qubit is zero at first. -/
def Circuit.toggled (c : Circuit) : Int → Bool := c.data.foldl toggle fun _ => false

def readBits (state : Int → Bool) : List Int → Nat
  | [] => 0
  | qubit :: rest => (state qubit).toNat + 2 * readBits state rest

section Toggles

variable {bits place : Nat} {qubits : List Int}

theorem foldl_toggle_single (distinct : qubits.Nodup) (state : Int → Bool) (qubit : Int) :
    (qubits.map (Instruction.single "x")).foldl toggle state qubit =
      (state qubit ^^ decide (qubit ∈ qubits)) := by
  induction qubits generalizing state with
  | nil => simp
  | cons first rest ih =>
      have fresh := (List.nodup_cons.mp distinct).1
      rw [List.map_cons, List.foldl_cons, ih (List.nodup_cons.mp distinct).2]
      by_cases here : qubit = first
      · subst here
        simp [toggle, Instruction.single, fresh]
      · simp [toggle, Instruction.single, here]

theorem readBits_setQubitsFrom (distinct : qubits.Nodup) {state : Int → Bool}
    (shows : ∀ qubit ∈ qubits, state qubit = decide (qubit ∈ setQubitsFrom bits place qubits)) :
    readBits state qubits = bits / 2 ^ place % 2 ^ qubits.length := by
  -- The first qubit shows its own bit, since it does not occur again, and the others show the bits from
  -- the next place on.
  induction qubits generalizing place with
  | nil => rw [readBits, List.length_nil, pow_zero, Nat.mod_one]
  | cons first rest ih =>
      have fresh := (List.nodup_cons.mp distinct).1
      have absent : first ∉ setQubitsFrom bits (place + 1) rest := fun member =>
        fresh ((setQubitsFrom_sublist bits (place + 1) rest).subset member)
      have head : state first = bits.testBit place := by
        rw [shows first List.mem_cons_self]
        simp [mem_setQubitsFrom_cons, absent]
      have tail : ∀ qubit ∈ rest,
          state qubit = decide (qubit ∈ setQubitsFrom bits (place + 1) rest) := by
        intro qubit member
        have other : qubit ≠ first := fun same => fresh (same ▸ member)
        rw [shows qubit (List.mem_cons_of_mem first member)]
        simp [mem_setQubitsFrom_cons, other]
      calc
        readBits state (first :: rest) =
            bits / 2 ^ place % 2 + 2 * (bits / 2 ^ (place + 1) % 2 ^ rest.length) := by
          rw [readBits, head, Nat.toNat_testBit, ih (List.nodup_cons.mp distinct).2 tail]
        _ = bits / 2 ^ place % 2 + 2 * (bits / 2 ^ place / 2 % 2 ^ rest.length) := by
          rw [Nat.div_div_eq_div_mul, ← pow_succ]
        _ = bits / 2 ^ place % 2 ^ (first :: rest).length := by
          rw [List.length_cons, pow_succ', Nat.mod_mul]

end Toggles

/-- The circuit has X gates only, and after them the qubits show the bits while all others are zero. -/
structure Prepares (qubits : List Int) (bits : Nat) (c : Circuit) : Prop where
  gates : ∀ i ∈ c.data, ∃ qubit, i = Instruction.single "x" qubit
  shown : readBits c.toggled qubits = bits % 2 ^ qubits.length
  elsewhere : ∀ qubit, qubit ∉ qubits → c.toggled qubit = false

theorem prepares_of_data {qubits : List Int} (distinct : qubits.Nodup) {bits : Nat} {c : Circuit}
    (data : c.data = (setQubitsFrom bits 0 qubits).map (Instruction.single "x")) :
    Prepares qubits bits c := by
  have sublist := setQubitsFrom_sublist bits 0 qubits
  have state : ∀ qubit, c.toggled qubit = decide (qubit ∈ setQubitsFrom bits 0 qubits) := by
    intro qubit
    rw [Circuit.toggled, data, foldl_toggle_single (distinct.sublist sublist), Bool.false_xor]
  constructor
  · intro i member
    rw [data] at member
    rcases List.mem_map.mp member with ⟨qubit, -, rfl⟩
    exact ⟨qubit, rfl⟩
  · rw [readBits_setQubitsFrom distinct fun qubit _ => state qubit, pow_zero, Nat.div_one]
  · intro qubit unlisted
    rw [state]
    exact decide_eq_false fun member => unlisted (sublist.subset member)

section Preparation

variable {qubits : List Int} {width : Option Int} {name : Option String}

theorem prepareBits_eq {blank : Circuit}
    (made : Circuit.onBits (width.getD (span qubits)) 0 = .ok blank) (bits : Nat) :
    prepareBits qubits bits width name = Circuit.appendAll { blank with name := name }
      ((setQubitsFrom bits 0 qubits).map (Instruction.single "x")) := by
  have counted : ¬(bits : Int) < 0 := by omega
  simp only [prepareBits, counted, if_false, made]
  rfl

theorem prepareBits_returns (sized : Register.Sized (width.getD (span qubits)))
    (inside : ∀ qubit ∈ qubits, 0 ≤ qubit ∧ qubit < width.getD (span qubits)) (bits : Nat)
    (name : Option String) :
    ∃ c, prepareBits qubits bits width name = .ok c ∧
      (c.numQubits : Int) = width.getD (span qubits) ∧ c.phase = Binary64.zero false ∧
      c.data = (setQubitsFrom bits 0 qubits).map (Instruction.single "x") := by
  rcases Circuit.onBits_of_sized sized with ⟨qregs, made, total⟩
  have fits : ∀ i ∈ (setQubitsFrom bits 0 qubits).map (Instruction.single "x"),
      i.FitsIn (Register.total qregs) 0 := by
    intro i member
    rcases List.mem_map.mp member with ⟨qubit, set, rfl⟩
    apply Instruction.single_fitsIn
    rw [total]
    exact inside qubit ((setQubitsFrom_sublist bits 0 qubits).subset set)
  rw [prepareBits_eq made, Circuit.appendAll_of_fitsIn _ fits]
  exact ⟨_, rfl, total, rfl, rfl⟩

theorem sized_of_prepareBits {bits : Nat} {c : Circuit}
    (returned : prepareBits qubits bits width name = .ok c) :
    Register.Sized (width.getD (span qubits)) := by
  have counted : ¬(bits : Int) < 0 := by omega
  cases made : Circuit.onBits (width.getD (span qubits)) 0 with
  | error fault =>
      simp only [prepareBits, counted, if_false, made] at returned
      cases returned
  | ok blank => exact Circuit.sized_of_onBits made

theorem inside_width (counted : ∀ qubit ∈ qubits, 0 ≤ qubit)
    (wide : ∀ count ∈ width, ∀ qubit ∈ qubits, qubit < count) :
    ∀ qubit ∈ qubits, 0 ≤ qubit ∧ qubit < width.getD (span qubits) := by
  intro qubit listed
  refine ⟨counted qubit listed, ?_⟩
  cases width with
  | none => exact lt_span listed
  | some count => exact wide count rfl qubit listed

theorem prepareBits_eq_iff (distinct : qubits.Nodup)
    (sized : Register.Sized (width.getD (span qubits)))
    (inside : ∀ qubit ∈ qubits, 0 ≤ qubit ∧ qubit < width.getD (span qubits)) (first second : Nat) :
    prepareBits qubits first width name = prepareBits qubits second width name ↔
      first ≡ second [MOD 2 ^ qubits.length] := by
  constructor
  · intro same
    -- What is read back from the one circuit is what is left of either bitstring.
    rcases prepareBits_returns sized inside first name with ⟨c, returned, -, -, data⟩
    rcases prepareBits_returns sized inside second name with ⟨d, returned', -, -, data'⟩
    have equal : c = d := Except.ok.inj (returned.symm.trans (same.trans returned'))
    calc
      first % 2 ^ qubits.length = readBits c.toggled qubits :=
        (prepares_of_data distinct data).shown.symm
      _ = second % 2 ^ qubits.length := by
        rw [equal]
        exact (prepares_of_data distinct data').shown
  · intro congruent
    have agree : first % 2 ^ qubits.length = second % 2 ^ qubits.length := congruent
    have enough : 0 + qubits.length ≤ qubits.length := by omega
    have flips : setQubitsFrom first 0 qubits = setQubitsFrom second 0 qubits := by
      rw [← setQubitsFrom_mod enough first, agree, setQubitsFrom_mod enough]
    rcases Circuit.onBits_of_sized sized with ⟨qregs, made, -⟩
    rw [prepareBits_eq made, prepareBits_eq made, flips]

end Preparation

/-- Distinct qubits that fit the width can be prepared exactly if a register can be that wide. Then the
circuit consists of X gates, the bits are read back at the qubits up to the length of the list, every
other qubit is left alone, and two bitstrings give one circuit exactly if they agree modulo
`2 ^ qubits.length`. -/
theorem prepareBits_round_trip (qubits : List Int) (distinct : qubits.Nodup)
    (counted : ∀ qubit ∈ qubits, 0 ≤ qubit) (width : Option Int)
    (wide : ∀ count ∈ width, ∀ qubit ∈ qubits, qubit < count) (name : Option String) :
    (∀ bits : Nat, (∃ c, prepareBits qubits bits width name = .ok c) ↔
      Register.Sized (width.getD (span qubits))) ∧
    (Register.Sized (width.getD (span qubits)) →
      (∀ bits : Nat, ∃ c, prepareBits qubits bits width name = .ok c ∧
        (c.numQubits : Int) = width.getD (span qubits) ∧ Prepares qubits bits c) ∧
      ∀ first second : Nat,
        prepareBits qubits first width name = prepareBits qubits second width name ↔
          first ≡ second [MOD 2 ^ qubits.length]) := by
  have inside := inside_width counted wide
  have prepared : Register.Sized (width.getD (span qubits)) → ∀ bits : Nat,
      ∃ c, prepareBits qubits bits width name = .ok c ∧
        (c.numQubits : Int) = width.getD (span qubits) ∧ Prepares qubits bits c := by
    intro sized bits
    rcases prepareBits_returns sized inside bits name with ⟨c, returned, total, -, data⟩
    exact ⟨c, returned, total, prepares_of_data distinct data⟩
  constructor
  · intro bits
    constructor
    · intro returned
      rcases returned with ⟨c, returned⟩
      exact sized_of_prepareBits returned
    · intro sized
      rcases prepared sized bits with ⟨c, returned, -⟩
      exact ⟨c, returned⟩
  · intro sized
    exact ⟨prepared sized, prepareBits_eq_iff distinct sized inside⟩

theorem scattered_round_trip :
    (∃ c, prepareBits [4, 2, 0] 0b11101 (some 6) none = .ok c ∧ (c.numQubits : Int) = 6 ∧
      Prepares [4, 2, 0] 0b11101 c) ∧
    prepareBits [4, 2, 0] 0b11101 (some 6) none = prepareBits [4, 2, 0] 0b101 (some 6) none := by
  have sized : Register.Sized ((some 6).getD (span [4, 2, 0])) := by
    unfold Register.Sized
    decide
  have trip := (prepareBits_round_trip [4, 2, 0] (by decide) (by decide) (some 6) (by decide)
    none).2 sized
  exact ⟨trip.1 0b11101, (trip.2 0b11101 0b101).mpr (by decide)⟩

/-- Registers of `2 ^ 32` qubits, or of fewer than none, cannot be had, whatever the qubits are. -/
theorem unsized_not_prepared :
    ([4294967295] : List Int).Nodup ∧
    (∀ qubit ∈ ([4294967295] : List Int), 0 ≤ qubit) ∧
    (¬∃ c, prepareBits [4294967295] 0 none none = .ok c) ∧
    (∀ qubit ∈ ([] : List Int), qubit < -1) ∧
    ¬∃ c, prepareBits [] 0 (some (-1)) none = .ok c := by
  have wide : prepareBits [4294967295] 0 none none = .error .registerTooLarge := by rfl
  have negative : prepareBits [] 0 (some (-1)) none = .error .negativeRegister := by rfl
  rw [wide, negative]
  simp

end QuasiCut
