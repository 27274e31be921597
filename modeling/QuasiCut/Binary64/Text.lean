import QuasiCut.Binary64.Basic

/-! Decimal text of binary64 numbers. A number is written with the fewest digits that read back
to it, and of those the nearest; a decimal is rounded once. -/

namespace QuasiCut

structure Decimal where
  digits : Nat
  exponent : Int
  deriving DecidableEq, Repr

namespace Decimal

/-- The reals that round to a number, in units of `num / den`: `centre` is the number itself, and
the ends belong to the interval when `closed`. -/
structure Interval where
  low : Nat
  centre : Nat
  high : Nat
  num : Nat
  den : Nat
  closed : Bool

def Interval.of (m : Nat) (q : Int) : Interval where
  low := if m = Binary64.hiddenBit ∧ Binary64.minExponent < q then 4 * m - 1 else 4 * m - 2
  centre := 4 * m
  high := 4 * m + 2
  num := Binary64.scale 2 1 (q - 2)
  den := Binary64.scale 2 1 (2 - q)
  closed := m % 2 == 0

def Interval.scale (v : Interval) (k : Int) : Interval :=
  { v with num := Binary64.scale 10 v.num (-k), den := Binary64.scale 10 v.den k }

def Interval.contains (v : Interval) (point : Nat) : Bool :=
  if v.closed then
    decide (v.low * v.num ≤ point * v.den) && decide (point * v.den ≤ v.high * v.num)
  else
    decide (v.low * v.num < point * v.den) && decide (point * v.den < v.high * v.num)

def Interval.nearest? (v : Interval) : Option Nat :=
  let below := v.centre * v.num / v.den
  let rest := v.centre * v.num % v.den
  let upper := v.den < 2 * rest ∨ (2 * rest = v.den ∧ below % 2 = 1)
  match v.contains below, v.contains (below + 1) with
  | true, true => some (if upper then below + 1 else below)
  | true, false => some below
  | false, true => some (below + 1)
  | false, false => none

def order (num den : Nat) : Int :=
  let guess : Int := Binary64.binaryOrder num den * 30103 / 100000
  let reaches (e : Int) : Bool := decide (Binary64.scale 10 den e ≤ Binary64.scale 10 num (-e))
  if reaches (guess + 1) then guess + 1 else if reaches guess then guess else guess - 1

/-- The shortest decimal that rounds to `m * 2 ^ q`, for positive `m`: the grids of one, two, up
to seventeen digits are tried in turn. -/
def shortest (m : Nat) (q : Int) : Decimal :=
  let v := Interval.of m q
  let top := order (v.centre * v.num) v.den
  let onGrid (n : Nat) : Option Decimal :=
    ((v.scale (top - n)).nearest?).map fun digits => ⟨digits, top - n⟩
  ((List.range 17).findSome? onGrid).getD ⟨v.centre * v.num / v.den, 0⟩

/-- Positional from `0.0001` up to sixteen digits before the point, scientific elsewhere; there is
always a digit after a point, and an exponent has a sign and two digits at least. -/
def text (d : Decimal) : String :=
  let written := d.digits.repr.toList
  let places : Int := d.exponent + written.length - 1
  let digits := (written.reverse.dropWhile (· == '0')).reverse
  let zeros (n : Nat) : List Char := List.replicate n '0'
  if -4 ≤ places ∧ places < 16 then
    if places < 0 then
      String.ofList ("0.".toList ++ zeros (-places - 1).toNat ++ digits)
    else
      let whole := places.toNat + 1
      let padded := digits ++ zeros (whole - digits.length)
      let fraction := padded.drop whole
      String.ofList (padded.take whole ++ ['.'] ++ (if fraction.isEmpty then ['0'] else fraction))
  else
    let mantissa := match digits with
      | first :: second :: more => first :: '.' :: second :: more
      | short => short
    let size := places.natAbs.repr.toList
    let sign := if places < 0 then '-' else '+'
    String.ofList (mantissa ++ ['e', sign] ++ zeros (2 - size.length) ++ size)

def round (negative : Bool) (d : Decimal) : Binary64 :=
  let places : Int := d.exponent + d.digits.repr.length
  if d.digits = 0 ∨ places < -400 then Binary64.zero negative
  else if 400 < places then .infinite negative
  else
    Binary64.ofRatio negative (Binary64.scale 10 d.digits d.exponent)
      (Binary64.scale 10 1 (-d.exponent))

end Decimal

namespace Binary64

def text : Binary64 → String
  | .nan => "nan"
  | .infinite negative => if negative then "-inf" else "inf"
  | .finite negative m q =>
      let magnitude := if m = 0 then "0.0" else (Decimal.shortest m q).text
      if negative then "-" ++ magnitude else magnitude

end Binary64
end QuasiCut
