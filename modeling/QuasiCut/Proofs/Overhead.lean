import Mathlib
import QuasiCut.Overhead

/-! How many cuts an overhead can be computed for: fewer than 512 wires, or at most 646 gates. The
power of a whole number is finite when its order is below 1023, and refused from order 1024 on. A
power of two is not rounded, so the overhead of wires is exact. -/

namespace QuasiCut

namespace Binary64

theorem binaryOrder_one {num : Nat} (positive : 0 < num) : binaryOrder num 1 = num.log2 := by
  have lower : Nat.pow 2 num.log2 ≤ num := Nat.log2_self_le (by omega)
  have one : Nat.log2 1 = 0 := by decide
  simp only [binaryOrder, one, Int.natCast_zero, Int.sub_zero, scale, Int.toNat_natCast,
    Int.toNat_neg_natCast]
  rw [if_pos]
  simpa using lower

theorem isFinite_ofRatio {num : Nat} (order : num.log2 < 1023) :
    (ofRatio false num 1).isFinite = true := by
  by_cases zero : num = 0
  · simp [ofRatio, zero, isFinite]
  · have unit : max minExponent ((num.log2 : Int) - 52) ≤ 970 := by
      unfold minExponent
      omega
    simp only [ofRatio, if_neg zero, binaryOrder_one (Nat.pos_of_ne_zero zero)]
    rw [if_neg]
    · rfl
    · unfold maxExponent
      split <;> omega

theorem ofRatio_infinite {num : Nat} (order : 1024 ≤ num.log2) :
    ofRatio false num 1 = .infinite false := by
  have positive : num ≠ 0 := by
    rintro rfl
    simp at order
  have unit : 972 ≤ max minExponent ((num.log2 : Int) - 52) := by
    unfold minExponent
    omega
  simp only [ofRatio, if_neg positive, binaryOrder_one (Nat.pos_of_ne_zero positive)]
  rw [if_pos]
  unfold maxExponent
  split <;> omega

theorem orFault_of_isFinite {x : Binary64} (finite : x.isFinite = true) (fault : Fault) :
    x.orFault fault = .ok x := by
  cases x with
  | nan => cases finite
  | infinite negative => cases finite
  | finite negative m q => rfl

theorem fromInt_of_small {exponent : Nat} (small : exponent < 1024) :
    fromInt exponent = .ok (ofInt exponent) := by
  refine orFault_of_isFinite ?_ _
  have sign : decide ((exponent : Int) < 0) = false := by simp
  rw [ofInt, sign, Int.natAbs_natCast]
  apply isFinite_ofRatio
  by_cases zero : exponent = 0
  · simp [zero]
  · have below : exponent < 2 ^ 10 := small
    exact ((Nat.log2_lt zero).mpr below).trans (by omega)

theorem power_isOk {base exponent : Nat} (small : exponent < 1024)
    (finite : (ofRatio false (Nat.pow base exponent) 1).isFinite = true) :
    (power base exponent).isOk = true := by
  simp only [power, fromInt_of_small small, bind, Except.bind, if_neg (Nat.not_le.mpr small),
    orFault_of_isFinite finite]
  rfl

theorem power_refused {base exponent : Nat}
    (order : exponent < 1024 → 1024 ≤ (Nat.pow base exponent).log2) :
    (power base exponent).isOk = false := by
  unfold power
  cases fromInt exponent with
  | error fault => rfl
  | ok value =>
      by_cases large : 1024 ≤ exponent
      · simp [bind, Except.bind, large, Except.isOk, Except.toBool]
      · simp only [bind, Except.bind, if_neg large, ofRatio_infinite (order (by omega)), orFault]
        rfl

theorem orFault_refused {x : Binary64} {fault other : Fault}
    (refused : x.orFault fault = .error other) : other = fault := by
  cases x with
  | infinite negative =>
      cases refused
      rfl
  | nan => cases refused
  | finite negative m q => cases refused

theorem power_fault_kind {base exponent : Nat} {fault : Fault}
    (refused : power base exponent = .error fault) : fault.kind = .overflow := by
  unfold power at refused
  cases converted : fromInt exponent with
  | error other =>
      rw [converted] at refused
      cases refused
      rw [orFault_refused converted]
      rfl
  | ok value =>
      rw [converted] at refused
      by_cases large : 1024 ≤ exponent
      · simp only [bind, Except.bind, if_pos large] at refused
        cases refused
        rfl
      · simp only [bind, Except.bind, if_neg large] at refused
        rw [orFault_refused refused]
        rfl

section Exact

theorem scale_twoPow (exponent : Nat) (e : Int) :
    scale 2 (2 ^ exponent) e = 2 ^ (exponent + e.toNat) := by
  rw [scale, Nat.pow_eq, ← pow_add]

theorem scale_one (e : Int) : scale 2 1 e = 2 ^ e.toNat := by
  rw [scale, Nat.pow_eq, one_mul]

theorem roundDiv_mul (quotient : Nat) {den : Nat} (positive : 0 < den) :
    roundDiv (quotient * den) den = quotient := by
  simp only [roundDiv, Nat.mul_div_cancel _ positive, Nat.mul_mod_left, Nat.mul_zero]
  rw [if_neg]
  omega

theorem binaryOrder_twoPow (a b : Nat) : binaryOrder (2 ^ a) (2 ^ b) = (a : Int) - b := by
  have same : b + ((a : Int) - b).toNat = a + (-((a : Int) - b)).toNat := by omega
  simp only [binaryOrder, Nat.log2_two_pow, scale_twoPow, same, le_refl, if_true]

theorem ofRatio_twoPow (negative : Bool) {a b : Nat} (low : -1022 ≤ (a : Int) - b)
    (high : (a : Int) - b ≤ 1023) :
    ofRatio negative (2 ^ a) (2 ^ b) = .finite negative hiddenBit ((a : Int) - b - 52) := by
  have positive : 2 ^ a ≠ 0 := (Nat.two_pow_pos a).ne'
  have unit : max minExponent ((a : Int) - b - 52) = (a : Int) - b - 52 := by
    unfold minExponent
    omega
  have aligned : a + (-((a : Int) - b - 52)).toNat = 52 + (b + ((a : Int) - b - 52).toNat) := by
    omega
  have rounded : roundDiv (scale 2 (2 ^ a) (-((a : Int) - b - 52)))
      (scale 2 (2 ^ b) ((a : Int) - b - 52)) = hiddenBit := by
    rw [scale_twoPow, scale_twoPow, aligned, pow_add 2 52, roundDiv_mul _ (Nat.two_pow_pos _)]
    rfl
  have uncarried : ¬hiddenBit = 2 * hiddenBit := by decide
  have inside : ¬maxExponent < (a : Int) - b - 52 := by
    unfold maxExponent
    omega
  simp only [ofRatio, if_neg positive, binaryOrder_twoPow, unit, rounded, if_neg uncarried,
    if_neg inside]

theorem toRat?_twoPow (order : Nat) :
    (Binary64.finite false hiddenBit ((order : Int) - 52)).toRat? = some (2 ^ order) := by
  have aligned : 52 + ((order : Int) - 52).toNat = order + (-((order : Int) - 52)).toNat := by omega
  have numerator : scale 2 hiddenBit ((order : Int) - 52) =
      2 ^ (order + (-((order : Int) - 52)).toNat) := by
    rw [← aligned]
    exact scale_twoPow 52 _
  have nonzero : (2 : ℚ) ^ (-((order : Int) - 52)).toNat ≠ 0 := pow_ne_zero _ two_ne_zero
  simp only [toRat?, numerator, scale_one, Bool.false_eq_true, if_false, Rat.mkRat_eq_div]
  push_cast
  rw [pow_add, mul_div_cancel_right₀ _ nonzero]

theorem power_twoPow {base exponent order : Nat} (small : exponent < 1024)
    (same : Nat.pow base exponent = 2 ^ order) (inside : order ≤ 1023) :
    power base exponent = .ok (.finite false hiddenBit ((order : Int) - 52)) := by
  have rounded : ofRatio false (2 ^ order) 1 = .finite false hiddenBit ((order : Int) - 52) := by
    have unrounded := ofRatio_twoPow false (a := order) (b := 0) (by omega) (by omega)
    rw [Int.natCast_zero, Int.sub_zero, pow_zero] at unrounded
    exact unrounded
  simp only [power, fromInt_of_small small, bind, Except.bind, if_neg (Nat.not_le.mpr small), same,
    rounded, orFault]

theorem mul_twoPow {first second : Nat} (inside : first + second ≤ 1023) :
    Binary64.finite false hiddenBit ((first : Int) - 52) *
      Binary64.finite false hiddenBit ((second : Int) - 52) =
        .finite false hiddenBit (((first + second : Nat) : Int) - 52) := by
  have product : hiddenBit * hiddenBit = 2 ^ 104 := by decide
  show ofRatio (false ^^ false)
    (scale 2 (hiddenBit * hiddenBit) ((first : Int) - 52 + ((second : Int) - 52)))
    (scale 2 1 (-((first : Int) - 52 + ((second : Int) - 52)))) = _
  rw [product, scale_twoPow, scale_one, ofRatio_twoPow _ (by omega) (by omega)]
  congr 1
  omega

end Exact

end Binary64

open Binary64

theorem samplingOverhead_isOk (wires gates : Nat) :
    (samplingOverhead wires gates).isOk = ((power 4 wires).isOk && (power 3 gates).isOk) := by
  have counts : ¬((wires : Int) < 0 ∨ (gates : Int) < 0) := by omega
  simp only [samplingOverhead, if_neg counts, Int.toNat_natCast]
  cases power 4 wires <;> cases power 3 gates <;> rfl

theorem samplingOverhead_fault_kind {wires gates : Nat} {fault : Fault}
    (refused : samplingOverhead wires gates = .error fault) : fault.kind = .overflow := by
  have counts : ¬((wires : Int) < 0 ∨ (gates : Int) < 0) := by omega
  simp only [samplingOverhead, if_neg counts, Int.toNat_natCast, bind, Except.bind] at refused
  cases first : power 4 wires with
  | error other =>
      rw [first] at refused
      cases refused
      exact power_fault_kind first
  | ok wirePart =>
      rw [first] at refused
      cases second : power 3 gates with
      | error other =>
          rw [second] at refused
          cases refused
          exact power_fault_kind second
      | ok gatePart =>
          rw [second] at refused
          cases refused

theorem power_zero_isOk (base : Nat) : (power base 0).isOk = true := by
  apply power_isOk (by omega)
  apply isFinite_ofRatio
  rw [Nat.pow_eq, Nat.pow_zero]
  decide

theorem samplingOverhead_wires (count : Nat) :
    (samplingOverhead count 0).isOk = true ↔ count < 512 := by
  have split := samplingOverhead_isOk count 0
  rw [Int.natCast_zero, power_zero_isOk, Bool.and_true] at split
  rw [split]
  have squares : Nat.pow 4 count = 2 ^ (2 * count) := by
    rw [pow_mul]
    rfl
  constructor
  · intro computed
    by_contra many
    rw [power_refused] at computed
    · cases computed
    · intro _
      rw [squares, Nat.log2_two_pow]
      omega
  · intro few
    apply power_isOk (by omega)
    apply isFinite_ofRatio
    rw [squares, Nat.log2_two_pow]
    omega

theorem samplingOverhead_gates (count : Nat) :
    (samplingOverhead 0 count).isOk = true ↔ count ≤ 646 := by
  have split := samplingOverhead_isOk 0 count
  rw [Int.natCast_zero, power_zero_isOk, Bool.true_and] at split
  rw [split]
  have positive : Nat.pow 3 count ≠ 0 := (Nat.pow_pos (by decide : 0 < 3)).ne'
  constructor
  · intro computed
    by_contra many
    rw [power_refused] at computed
    · cases computed
    · intro _
      have least : 2 ^ 1024 ≤ Nat.pow 3 647 := by decide +kernel
      rw [Nat.le_log2 positive]
      apply least.trans
      apply Nat.pow_le_pow_right <;> omega
  · intro few
    apply power_isOk (by omega)
    rcases Nat.lt_or_eq_of_le few with fewer | rfl
    · apply isFinite_ofRatio
      have most : Nat.pow 3 645 < 2 ^ 1023 := by decide +kernel
      rw [Nat.log2_lt positive]
      apply LE.le.trans_lt _ most
      apply Nat.pow_le_pow_right <;> omega
    · -- The order of this one power is 1023, so its rounding has to be looked at.
      decide +kernel

/-- The overhead of fewer than 512 wires is an exact power of four. -/
theorem samplingOverhead_exact {count : Nat} (few : count < 512) :
    ∃ overhead, samplingOverhead count 0 = .ok overhead ∧ overhead.toRat? = some (4 ^ count) := by
  have counts : ¬((count : Int) < 0 ∨ (0 : Int) < 0) := by omega
  have squares : Nat.pow 4 count = 2 ^ (2 * count) := by
    rw [pow_mul]
    rfl
  have wires := power_twoPow (by omega) squares (by omega)
  have gates : power 3 0 = .ok (.finite false hiddenBit (((0 : Nat) : Int) - 52)) :=
    power_twoPow (by omega) rfl (by omega)
  refine ⟨.finite false hiddenBit (((2 * count + 0 : Nat) : Int) - 52), ?_, ?_⟩
  · simp only [samplingOverhead, if_neg counts, Int.toNat_natCast, Int.toNat_zero, wires, gates, bind,
      Except.bind, pure, Except.pure]
    rw [mul_twoPow (by omega)]
  · rw [toRat?_twoPow, Nat.add_zero, pow_mul]
    norm_num

end QuasiCut
