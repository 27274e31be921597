import QuasiCut.Arithmetic

/-! What cutting costs: the sampling overhead of cuts, and the shots for a precision. -/

namespace QuasiCut

/-- A wire cut multiplies the overhead by four and a gate cut by three. -/
def samplingOverhead (wireCuts gateCuts : Int) : Except Fault Binary64 := do
  if wireCuts < 0 ∨ gateCuts < 0 then .error (.negativeCutCount wireCuts gateCuts)
  let wires ← Binary64.power 4 wireCuts.toNat
  let gates ← Binary64.power 3 gateCuts.toNat
  return wires * gates

def samplingOverheadOf (wireCuts gateCuts : Number) : Except Fault Binary64 := do
  if wireCuts.below 0 ∨ gateCuts.below 0 then .error (.negativeCutCount wireCuts gateCuts)
  samplingOverhead (← wireCuts.toInt) (← gateCuts.toInt)

def shots (precision overhead : Number) : Except Fault Int := do
  if precision.atMost 0 then .error (.precisionNotPositive precision)
  let ratio ← overhead.quotient precision
  let squared ← ratio.square
  squared.floor

end QuasiCut
