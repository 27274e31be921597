import QuasiCut.Arithmetic
import QuasiCut.Steps

/-! Quasiprobability bases: a cut as a weighted sum of terms, each with local operations on the
sides of the cut. -/

namespace QuasiCut

abbrev Side := List String

abbrev Term := List Side

/-- Numbers that serve as coefficients: exact rationals, or binary64 numbers. -/
class Coefficient (α : Type) where
  ofRat : Rat → α

instance : Coefficient Rat := ⟨id⟩
instance : Coefficient Binary64 := ⟨Binary64.ofRat⟩

structure Basis (α : Type) where
  terms : List Term
  coeffs : List α
  deriving DecidableEq, Repr

namespace Basis

variable {α ν : Type}

def numTerms (b : Basis α) : Nat := b.terms.length

def side (b : Basis α) (term side : Nat) : Side :=
  ((b.terms[term]?).bind (·[side]?)).getD []

def checkTerms (terms : List Term) : Except Fault Unit :=
  match terms with
  | [] => .error .noTerms
  | first :: _ =>
      if 2 < first.length then .error .tooManySides
      else
        match terms.zipIdx.find? fun term => term.1.length != first.length with
        | some (term, index) => .error (.unevenSides index term.length first.length)
        | none => .ok ()

/-- Gives the terms new coefficients, one each. All numbers are read before any is stored. -/
def assign (read : ν → Except Fault α) (coeffs : List ν) : Action (Basis α) Unit := do
  let b ← get
  if coeffs.length ≠ b.numTerms then Report.fail .coefficientCount
  let values ← Report.ofExcept (coeffs.mapM read)
  set { b with coeffs := values }

def make (read : ν → Except Fault α) (terms : List Term) (coeffs : List ν) :
    Except Fault (Basis α) := do
  checkTerms terms
  let (b, report) := assign read coeffs ⟨terms, []⟩
  report.outcome
  return b

def sameAs (left right : Basis Binary64) : Bool :=
  left.terms == right.terms && left.coeffs.length == right.coeffs.length &&
    (left.coeffs.zip right.coeffs).all fun pair => pair.1.sameValue pair.2

end Basis
end QuasiCut
