import QuasiCut.Basis.Basic
import QuasiCut.Index
import QuasiCut.Lockstep
import QuasiCut.Report

/-! Configurations: one term chosen from each of several bases. A configuration has a number whose
mixed-radix digits are the choices, the first basis being the least significant. -/

namespace QuasiCut.Configuration

variable {α : Type}

def count : List (Basis α) → Nat
  | [] => 1
  | b :: bases => b.numTerms * count bases

def digits : List (Basis α) → Nat → List Nat
  | [], _ => []
  | b :: bases, index => index % b.numTerms :: digits bases (index / b.numTerms)

def choices (bases : List (Basis α)) (index : Int) : Except Fault (List Nat) :=
  if 0 ≤ index ∧ index < count bases then .ok (digits bases index.toNat)
  else .error (.configurationOutOfRange index (count bases))

def binaryDigits : List (Basis α) → Binary64 → List Binary64
  | [], _ => []
  | b :: bases, index =>
      index.remainder b.numTerms :: binaryDigits bases (index.multiples b.numTerms)

def choicesOf (bases : List (Basis α)) : Number → Except Fault (List Number)
  | .integer index => do
      let chosen ← choices bases index
      return chosen.map Number.ofNat
  | .binary index =>
      if (Number.binary index).atLeast 0 ∧ (Number.binary index).below (count bases) then
        .ok ((binaryDigits bases index).map .binary)
      else .error (.configurationOutOfRange (.binary index) (count bases))

def coeffAt (b : Basis α) (choice : Number) : Except Fault α := do
  let index ← choice.toIndex .coefficientNotWhole
  match itemAt? b.coeffs index with
  | some coeff => .ok coeff
  | none => .error (if isWordSized index then .termOutOfRange else .indexTooWide)

def weightFrom [Mul α] : α → List (Basis α × Number) → Except Fault α
  | product, [] => .ok product
  | product, (b, choice) :: rest => do
      let coeff ← coeffAt b choice
      weightFrom (product * coeff) rest

/-- The product of the chosen coefficients, from left to right. That there is one choice for each
basis is asked only after the last pair. -/
def weight [One α] [Mul α] (bases : List (Basis α)) (chosen : List Number) : Except Fault α := do
  let product ← weightFrom 1 (bases.zip chosen)
  Lockstep.check [bases.length, chosen.length]
  return product

def entry [One α] [Mul α] (bases : List (Basis α)) (index : Nat) :
    Except Fault (List Nat × α) := do
  let chosen ← choices bases index
  let product ← weight bases (chosen.map Number.ofNat)
  return (chosen, product)

def entries [One α] [Mul α] (bases : List (Basis α)) (number : Nat) :
    Report (List (List Nat × α)) := do
  Report.emit (.enumerating (count bases) bases.length)
  Report.ofExcept ((List.range number).mapM (entry bases))

def enumerate [One α] [Mul α] (bases : List (Basis α)) : Report (List (List Nat × α)) :=
  entries bases (count bases)

def enumerateFirst [One α] [Mul α] (bases : List (Basis α)) (limit : Nat) :
    Report (List (List Nat × α)) :=
  if limit = 0 then pure [] else entries bases (min limit (count bases))

/-- The first configurations for a limit that is given as any number. It must be a count below
`2 ^ 63`. -/
def enumerateUpTo [One α] [Mul α] (bases : List (Basis α)) (limit : Number) :
    Report (List (List Nat × α)) :=
  match limit.integer? with
  | some n =>
      if 0 ≤ n ∧ n < Nat.pow 2 63 then enumerateFirst bases n.toNat
      else Report.fail .limitNotACount
  | none => Report.fail .limitNotACount

end QuasiCut.Configuration
