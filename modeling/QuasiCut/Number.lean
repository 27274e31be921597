import QuasiCut.Binary64.Integer
import QuasiCut.Binary64.Numeral

/-! Numbers as a caller gives them: whole numbers of any size, or binary64 numbers. -/

namespace QuasiCut

inductive Number where
  | integer (value : Int)
  | binary (value : Binary64)
  deriving DecidableEq, Repr

namespace Number

instance : Coe Int Number := ⟨.integer⟩

def ofNat (n : Nat) : Number := .integer n

def text : Number → String
  | .integer n => n.repr
  | .binary x => x.text

def integerOf? (cs : List Char) : Option Int :=
  let (negative, digits) := match cs with
    | '-' :: rest => (true, rest)
    | rest => (false, rest)
  if digits.isEmpty || !digits.all Char.isDigit then none
  else
    let size : Int := Binary64.digitsValue digits
    some (if negative then -size else size)

/-- Whole numbers of more decimal digits are neither read nor written. -/
def digitLimit : Nat := 4300

def ofText? (s : String) : Option Number :=
  match integerOf? s.toList with
  | some n => some (.integer n)
  | none => (Binary64.ofText? s).map .binary

def atLeast (x : Number) (n : Int) : Bool :=
  match x with
  | .integer m => decide (n ≤ m)
  | .binary y => y.atLeast n

def atMost (x : Number) (n : Int) : Bool :=
  match x with
  | .integer m => decide (m ≤ n)
  | .binary y => y.atMost n

def below (x : Number) (n : Int) : Bool := x.atMost n && !x.atLeast n

def less : Number → Number → Bool
  | x, .integer n => x.below n
  | .integer m, .binary y => y.atLeast m && !y.atMost m
  | .binary x, .binary y => x.less y

/-- The larger of two numbers, which is the first unless the second exceeds it. -/
def larger (x y : Number) : Number := if x.less y then y else x

def next : Number → Number
  | .integer n => .integer (n + 1)
  | .binary x => .binary (x + 1)

def whole? : Number → Option Int
  | .integer n => some n
  | .binary x => x.whole?

def integer? : Number → Option Int
  | .integer n => some n
  | .binary _ => none

def sameValue : Number → Number → Bool
  | .integer m, y => y.whole? == some m
  | x, .integer n => x.whole? == some n
  | .binary x, .binary y => x.sameValue y

def distinct : List Number → Bool
  | [] => true
  | x :: rest => !rest.any x.sameValue && distinct rest

@[simp] theorem atLeast_integer (m n : Int) : (integer m).atLeast n = decide (n ≤ m) := rfl

@[simp] theorem atMost_integer (m n : Int) : (integer m).atMost n = decide (m ≤ n) := rfl

@[simp] theorem below_integer (m n : Int) : (integer m).below n = decide (m < n) := by
  simp only [below, atMost_integer, atLeast_integer]
  by_cases h : m < n
  · simp [h, Int.le_of_lt h, Int.not_le.mpr h]
  · simp [h, Int.not_lt.mp h]

@[simp] theorem larger_integer (m n : Int) : larger m n = integer (max m n) := by
  simp only [larger, less, below_integer, decide_eq_true_eq]
  by_cases h : m < n
  · rw [if_pos h, Int.max_eq_right (Int.le_of_lt h)]
  · rw [if_neg h, Int.max_eq_left (Int.not_lt.mp h)]

@[simp] theorem next_integer (n : Int) : (integer n).next = integer (n + 1) := rfl

@[simp] theorem whole?_integer (n : Int) : (integer n).whole? = some n := rfl

theorem atLeast_of_le {x : Number} {m n : Int} (below : m ≤ n) (reached : x.atLeast n = true) :
    x.atLeast m = true := by
  cases x with
  | integer k =>
      simp only [atLeast_integer, decide_eq_true_eq] at reached ⊢
      exact Int.le_trans below reached
  | binary y => exact Binary64.atLeast_of_le below reached

theorem below_of_atLeast {x : Number} {n : Int} (reached : x.atLeast n = true) :
    x.below n = false := by
  simp [below, reached]

theorem distinct_integers (ns : List Int) : distinct (ns.map integer) = decide ns.Nodup := by
  induction ns with
  | nil => rfl
  | cons n rest ih =>
      have found : (rest.map integer).any (sameValue n) = decide (n ∈ rest) := by
        rw [Bool.eq_iff_iff, List.any_map, List.any_eq_true]
        simp only [Function.comp, sameValue, whole?_integer, beq_iff_eq, Option.some.injEq,
          decide_eq_true_eq]
        constructor
        · rintro ⟨m, member, rfl⟩
          exact member
        · exact fun member => ⟨n, member, rfl⟩
      simp only [List.map_cons, distinct, found, ih, List.nodup_cons]
      by_cases member : n ∈ rest <;> simp [member]

end Number
end QuasiCut
