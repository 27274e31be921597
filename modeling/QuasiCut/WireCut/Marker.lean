import QuasiCut.WireCut.Basic

/-! Markers: instructions that stand for a wire cut at their place. -/

namespace QuasiCut

def markerName : String := "cut_wire"

structure Marker where
  label : Option String
  deriving DecidableEq, Repr

def Marker.definition (_ : Marker) : Circuit :=
  { Circuit.empty [⟨"q", 1⟩] [] with name := some markerName }

namespace Instruction

def isMarker (i : Instruction) : Bool := i.name == markerName

end Instruction

namespace Circuit

/-- The cuts that the markers stand for, after `kept` instructions that are no markers. -/
def markersFrom : Nat → List Instruction → Except Fault (List WireCut)
  | _, [] => .ok []
  | kept, i :: rest =>
      if i.isMarker then
        match i.qubits with
        | [] => .error .markerOnNothing
        | qubit :: _ => do
            let later ← markersFrom kept rest
            return ⟨kept, qubit⟩ :: later
      else markersFrom (kept + 1) rest

def readMarkers (c : Circuit) : Except Fault (Circuit × List WireCut) := do
  let cuts ← markersFrom 0 c.data
  return (c.filter (!·.isMarker), cuts)

end Circuit
end QuasiCut
