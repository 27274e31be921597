import QuasiCut.Arithmetic

/-! Knitting: the weighted sum of what the experiments measured. -/

namespace QuasiCut.Knit

/-- A sum of several numbers starts at the positive zero; a single number is its own sum. -/
def sum : List Binary64 → Binary64
  | [] => Binary64.zero false
  | [x] => x
  | xs => xs.foldl (· + ·) (Binary64.zero false)

def products (left right : List Binary64) : List Binary64 :=
  (left.zip right).map fun (x, y) => x * y

def weightedSum (expectations : List Binary64) (coefficients : List Number) :
    Except Fault Binary64 := do
  let coefficients ← coefficients.mapM Number.toBinary64
  return sum (products expectations coefficients)

def results (expectations coefficients : List Number) : Except Fault Binary64 := do
  if expectations.length ≠ coefficients.length then
    .error (.expectationCount expectations.length coefficients.length)
  let expectations ← expectations.mapM Number.toBinary64
  weightedSum expectations coefficients

def splitResults (before after coefficients : List Number) : Except Fault Binary64 := do
  if before.length ≠ after.length then .error (.fragmentCount before.length after.length)
  let before ← before.mapM Number.toBinary64
  let after ← after.mapM Number.toBinary64
  let expectations := products before after
  if expectations.length ≠ coefficients.length then
    .error (.expectationCount expectations.length coefficients.length)
  weightedSum expectations coefficients

end QuasiCut.Knit
