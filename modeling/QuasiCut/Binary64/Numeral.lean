import QuasiCut.Binary64.Text
import QuasiCut.Text.Blank
import QuasiCut.Text.DecimalDigit

/-! Binary64 numbers read from text. Blanks may stand around a number, its digits may be those of
any script, and an underscore may part two digits. -/

namespace QuasiCut
namespace Binary64

def digitsValue (digits : List Char) : Nat :=
  digits.foldl (fun value c => 10 * value + (c.toNat - '0'.toNat)) 0

/-- Removes underscores that stand between two digits; any other underscore stays. -/
def dropSeparators : List Char → List Char
  | a :: '_' :: b :: rest =>
      if a.isDigit && b.isDigit then a :: dropSeparators (b :: rest)
      else a :: '_' :: dropSeparators (b :: rest)
  | a :: rest => a :: dropSeparators rest
  | [] => []

def splitSign : List Char → Bool × List Char
  | '-' :: rest => (true, rest)
  | '+' :: rest => (false, rest)
  | cs => (false, cs)

def exponentOf? : List Char → Option Int
  | [] => some 0
  | c :: rest =>
      let (negative, digits) := splitSign rest
      if c.toLower == 'e' && !digits.isEmpty && digits.all Char.isDigit then
        let size : Int := digitsValue digits
        some (if negative then -size else size)
      else none

def decimalOf? (cs : List Char) : Option Decimal :=
  let whole := cs.takeWhile Char.isDigit
  let (fraction, tail) := match cs.dropWhile Char.isDigit with
    | '.' :: rest => (rest.takeWhile Char.isDigit, rest.dropWhile Char.isDigit)
    | rest => ([], rest)
  if whole.isEmpty && fraction.isEmpty then none
  else (exponentOf? tail).map fun e => ⟨digitsValue (whole ++ fraction), e - fraction.length⟩

/-- Reads a decimal, or one of the names of the infinities and of `nan` in any case. -/
def ofText? (s : String) : Option Binary64 :=
  let (negative, body) := splitSign (Text.trim (s.toList.map Text.plainDigit))
  let word := String.ofList (body.map Char.toLower)
  if word == "inf" || word == "infinity" then some (.infinite negative)
  else if word == "nan" then some .nan
  else (decimalOf? (dropSeparators body)).map (Decimal.round negative)

end Binary64
end QuasiCut
