import QuasiCut.CutCircuit
import QuasiCut.Overhead
import QuasiCut.Report

/-! Slicing a circuit in time, at the position of every cut. -/

namespace QuasiCut

namespace WireCut

/-- By position; cuts at one position keep their order. -/
def sorted (cuts : List WireCut) : List WireCut :=
  cuts.mergeSort fun a b => decide (a.position ≤ b.position)

end WireCut

namespace Circuit

def slicesFrom (c : Circuit) : Nat → List Nat → List Circuit
  | start, [] => [c.slice start c.data.length]
  | start, stop :: rest => c.slice start stop :: c.slicesFrom stop rest

/-- One subcircuit before each cut and one after the last; two cuts at one position have an empty
one between them. -/
def sliceAtCuts (c : Circuit) (cuts : List WireCut) : Report CutCircuit := do
  c.checkCuts cuts
  let ordered := WireCut.sorted cuts
  let subcircuits := c.slicesFrom 0 (ordered.map (·.position.toNat))
  Report.emit (.sliced subcircuits.length)
  let overhead ← samplingOverhead cuts.length 0
  return {
    subcircuits
    cuts := ordered.zipIdx.map fun (cut, index) => ⟨index, cut.qubit, .wire⟩
    overhead }

/-- Slices at sites that are given by any numbers. A position has to be an integer; a qubit is
recorded as it was given. -/
def sliceAtSites (c : Circuit) (sites : List CutSite) : Report CutCircuit := do
  c.checkSites sites
  let positions ← sites.mapM fun site => site.position.toIndex .positionNotWhole
  let ordered := (positions.zip sites).mergeSort fun a b => decide (a.1 ≤ b.1)
  let sliced ← c.sliceAtCuts (CutSite.cuts (ordered.map (·.2)))
  return { sliced with
    cuts := sliced.cuts.zipWith (fun record (_, site) => { record with qubit := site.qubit })
      ordered }

end Circuit
end QuasiCut
