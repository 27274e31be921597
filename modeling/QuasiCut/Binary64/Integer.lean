import QuasiCut.Binary64.Basic

/-! Binary64 numbers beside integers: order, equality and division. A finite number is the fraction
`numerator / denominator`, so each comparison is one of integers. -/

namespace QuasiCut
namespace Binary64

def numerator (negative : Bool) (m : Nat) (q : Int) : Int :=
  let magnitude : Int := scale 2 m q
  if negative then -magnitude else magnitude

def denominator (q : Int) : Nat := scale 2 1 (-q)

def atLeast (x : Binary64) (n : Int) : Bool :=
  match x with
  | .nan => false
  | .infinite negative => !negative
  | .finite negative m q => decide (n * denominator q ≤ numerator negative m q)

def atMost (x : Binary64) (n : Int) : Bool :=
  match x with
  | .nan => false
  | .infinite negative => negative
  | .finite negative m q => decide (numerator negative m q ≤ n * denominator q)

def whole? : Binary64 → Option Int
  | .finite negative m q =>
      if numerator negative m q % denominator q = 0 then
        some (numerator negative m q / denominator q)
      else none
  | _ => none

def less : Binary64 → Binary64 → Bool
  | .finite s m q, .finite t n r =>
      decide (numerator s m q * denominator r < numerator t n r * denominator q)
  | .infinite s, .infinite t => s && !t
  | .infinite s, .finite .. => s
  | .finite .., .infinite t => !t
  | _, _ => false

theorem atLeast_of_le {x : Binary64} {m n : Int} (below : m ≤ n) (reached : x.atLeast n = true) :
    x.atLeast m = true := by
  cases x with
  | nan => exact reached
  | infinite negative => exact reached
  | finite negative k q =>
      simp only [atLeast, decide_eq_true_eq] at reached ⊢
      exact Int.le_trans (Int.mul_le_mul_of_nonneg_right below (Int.natCast_nonneg _)) reached

def remainder (x : Binary64) (n : Nat) : Binary64 :=
  match x with
  | .finite _ m q => ofRatio false (scale 2 m q % (n * denominator q)) (denominator q)
  | _ => .nan

/-- How many whole multiples of `n` a number holds that is not negative. The exact multiple is
rounded, and so is the quotient, which then goes to the nearest integer. -/
def multiples (x : Binary64) (n : Nat) : Binary64 :=
  match (x + -(x.remainder n)) / ofInt n with
  | .finite negative m q =>
      let low : Binary64 := ofInt ((numerator negative m q).fdiv (denominator q))
      let rest := .finite negative m q + -low
      if m = 0 then .finite negative m q
      else if (rest + rest).atMost 1 then low else low + 1
  | other => other

end Binary64
end QuasiCut
