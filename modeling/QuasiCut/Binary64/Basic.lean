/-! Binary64 numbers over exact integers. Every operation takes the exact rational result and
rounds it once, to the nearest number, a half going to the even significand. -/

namespace QuasiCut

/-- A binary64 number; `finite negative m q` is `m * 2 ^ q` with a sign. -/
inductive Binary64 where
  | nan
  | infinite (negative : Bool)
  | finite (negative : Bool) (significand : Nat) (exponent : Int)
  deriving DecidableEq, Repr

namespace Binary64

def minExponent : Int := -1074

def maxExponent : Int := 971

def hiddenBit : Nat := Nat.pow 2 52

/-- `n * base ^ e`, or `n` itself when `e` is negative. A fraction is scaled by `base ^ e` when its
numerator is scaled by `e` and its denominator by `-e`. -/
def scale (base n : Nat) (e : Int) : Nat := n * Nat.pow base e.toNat

def roundDiv (num den : Nat) : Nat :=
  let quotient := num / den
  let twice := 2 * (num % den)
  if den < twice ∨ (twice = den ∧ quotient % 2 = 1) then quotient + 1 else quotient

/-- The `e` with `2 ^ e ≤ num / den < 2 ^ (e + 1)`, for positive `num` and `den`. -/
def binaryOrder (num den : Nat) : Int :=
  let guess : Int := (num.log2 : Int) - den.log2
  if scale 2 den guess ≤ scale 2 num (-guess) then guess else guess - 1

/-- The number nearest to `num / den` with the given sign; infinite beyond the largest. -/
def ofRatio (negative : Bool) (num den : Nat) : Binary64 :=
  if num = 0 then .finite negative 0 minExponent
  else
    let q := max minExponent (binaryOrder num den - 52)
    let m := roundDiv (scale 2 num (-q)) (scale 2 den q)
    let carry := m = 2 * hiddenBit
    let significand := if carry then hiddenBit else m
    let exponent := if carry then q + 1 else q
    if maxExponent < exponent then .infinite negative
    else .finite negative significand exponent

def ofRat (value : Rat) : Binary64 :=
  ofRatio (decide (value < 0)) value.num.natAbs value.den

def ofInt (value : Int) : Binary64 :=
  ofRatio (decide (value < 0)) value.natAbs 1

def toRat? : Binary64 → Option Rat
  | .finite negative m q =>
      let magnitude := mkRat (scale 2 m q) (scale 2 1 (-q))
      some (if negative then -magnitude else magnitude)
  | _ => none

def isFinite : Binary64 → Bool
  | .finite .. => true
  | _ => false

def zero (negative : Bool) : Binary64 := .finite negative 0 minExponent

protected def neg : Binary64 → Binary64
  | .nan => .nan
  | .infinite s => .infinite (!s)
  | .finite s m q => .finite (!s) m q

protected def mul : Binary64 → Binary64 → Binary64
  | .nan, _ => .nan
  | _, .nan => .nan
  | .infinite s, .infinite t => .infinite (s ^^ t)
  | .infinite s, .finite t m _ => if m = 0 then .nan else .infinite (s ^^ t)
  | .finite s m _, .infinite t => if m = 0 then .nan else .infinite (s ^^ t)
  | .finite s m q, .finite t n r =>
      ofRatio (s ^^ t) (scale 2 (m * n) (q + r)) (scale 2 1 (-(q + r)))

/-- Opposite numbers sum to the positive zero; two negative zeros to the negative one. -/
protected def add : Binary64 → Binary64 → Binary64
  | .nan, _ => .nan
  | _, .nan => .nan
  | .infinite s, .infinite t => if s = t then .infinite s else .nan
  | .infinite s, .finite .. => .infinite s
  | .finite .., .infinite t => .infinite t
  | .finite s m q, .finite t n r =>
      let low := min q r
      let signed (negative : Bool) (k : Nat) (e : Int) : Int :=
        let shifted : Int := scale 2 k (e - low)
        if negative then -shifted else shifted
      let total := signed s m q + signed t n r
      if total = 0 then zero (s && t)
      else ofRatio (decide (total < 0)) (scale 2 total.natAbs low) (scale 2 1 (-low))

protected def div : Binary64 → Binary64 → Binary64
  | .nan, _ => .nan
  | _, .nan => .nan
  | .infinite _, .infinite _ => .nan
  | .infinite s, .finite t _ _ => .infinite (s ^^ t)
  | .finite s _ _, .infinite t => zero (s ^^ t)
  | .finite s m q, .finite t n r =>
      if n = 0 then if m = 0 then .nan else .infinite (s ^^ t)
      else ofRatio (s ^^ t) (scale 2 m (q - r)) (scale 2 n (r - q))

instance : Neg Binary64 := ⟨Binary64.neg⟩
instance : Mul Binary64 := ⟨Binary64.mul⟩
instance : Add Binary64 := ⟨Binary64.add⟩
instance : Div Binary64 := ⟨Binary64.div⟩
instance : One Binary64 := ⟨ofInt 1⟩

/-- Equality of values: the two zeros are equal, and nothing equals `nan`. -/
def sameValue : Binary64 → Binary64 → Bool
  | .infinite s, .infinite t => s == t
  | .finite s m q, .finite t n r =>
      (Binary64.finite s m q).toRat? == (Binary64.finite t n r).toRat?
  | _, _ => false

end Binary64
end QuasiCut
