import QuasiCut.Fault

/-! Arithmetic that can leave the range of binary64 numbers: a finite input with an infinite result
is refused. Products and quotients are the exact result rounded once, as the format demands. It
demands nothing of powers. `square` and `power` are correctly rounded here, while the power function
of a numerical library may return the neighbour (some do for `3 ^ 34`), so what is said of squared
amplitudes is said for every squaring function. -/

namespace QuasiCut

namespace Binary64

def orFault (x : Binary64) (fault : Fault) : Except Fault Binary64 :=
  match x with
  | .infinite _ => .error fault
  | x => .ok x

def fromInt (value : Int) : Except Fault Binary64 :=
  (ofInt value).orFault .integerTooLarge

/-- `base ^ exponent` for a base of two or more. Beyond `2 ^ 1024` there is nothing to compute. -/
def power (base exponent : Nat) : Except Fault Binary64 := do
  let _ ← fromInt exponent
  if 1024 ≤ exponent then .error .powerOverflow
  else (ofRatio false (Nat.pow base exponent) 1).orFault .powerOverflow

def square (x : Binary64) : Except Fault Binary64 :=
  if x.isFinite then (x * x).orFault .powerOverflow else .ok (x * x)

def floor : Binary64 → Except Fault Int
  | .nan => .error .floorOfNan
  | .infinite _ => .error .floorOfInfinity
  | .finite negative m q => .ok ((numerator negative m q).fdiv (denominator q))

def truncate : Binary64 → Except Fault Int
  | .nan => .error .floorOfNan
  | .infinite _ => .error .floorOfInfinity
  | .finite negative m q => .ok ((numerator negative m q).tdiv (denominator q))

end Binary64

namespace Number

def shown : Number → Except Fault String
  | .integer n => if n.natAbs < Nat.pow 10 digitLimit then .ok n.repr else .error .unprintable
  | .binary x => .ok x.text

def toBinary64 : Number → Except Fault Binary64
  | .integer n => Binary64.fromInt n
  | .binary x => .ok x

def truncate : Number → Except Fault Int
  | .integer n => .ok n
  | .binary x => x.truncate

def toInt : Number → Except Fault Int
  | .integer n => .ok n
  | .binary x =>
      match x.whole? with
      | some n => .ok n
      | none => .error (.notWhole x)

def toIndex (fault : Fault) : Number → Except Fault Int
  | .integer n => .ok n
  | .binary _ => .error fault

/-- The quotient by a positive number or `nan`. That of two whole numbers is rounded once. -/
def quotient (left right : Number) : Except Fault Binary64 :=
  match left, right with
  | .integer n, .integer d =>
      (Binary64.ofRatio (decide (n < 0)) n.natAbs d.natAbs).orFault .quotientTooLarge
  | left, right => do
      let x ← left.toBinary64
      let y ← right.toBinary64
      return x / y

end Number
end QuasiCut
