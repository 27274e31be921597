import QuasiCut.Circuit

/-! Wire cuts and the rule by which a circuit accepts them. -/

namespace QuasiCut

/-- Severs a qubit just before the instruction at `position`. -/
structure WireCut where
  position : Int
  qubit : Int
  deriving DecidableEq, Repr

namespace WireCut

def text (cut : WireCut) : String :=
  let position := cut.position
  let qubit := cut.qubit
  s!"WireCut(position={position}, qubit={qubit})"

end WireCut

/-- A wire cut as a caller gives it: its place is named by any two numbers. -/
structure CutSite where
  position : Number
  qubit : Number
  deriving DecidableEq, Repr

namespace CutSite

def cut? (site : CutSite) : Option WireCut := do
  return ⟨← site.position.whole?, ← site.qubit.whole?⟩

def integers? (site : CutSite) : Option WireCut := do
  return ⟨← site.position.integer?, ← site.qubit.integer?⟩

def cuts (sites : List CutSite) : List WireCut := sites.filterMap cut?

end CutSite

def WireCut.site (cut : WireCut) : CutSite := ⟨.integer cut.position, .integer cut.qubit⟩

namespace Circuit

/-- A cut lies between two instructions, or at an end, and severs a qubit that is acted on. -/
def checkSite (c : Circuit) (index : Nat) (site : CutSite) : Except Fault Unit :=
  if ¬(site.position.atLeast 0 ∧ site.position.atMost c.data.length) then
    .error (.cutOutside index site.position c.data.length)
  else if ¬(site.qubit.atLeast 0 ∧ site.qubit.below c.numQubits) then
    .error (.cutOffCircuit index site.qubit c.numQubits)
  else if ¬site.qubit.whole?.any (c.touched.contains ·) then
    .error (.cutIdle index site.qubit)
  else .ok ()

def checkSitesFrom (c : Circuit) : Nat → List CutSite → Except Fault Unit
  | _, [] => .ok ()
  | index, site :: sites => do
      c.checkSite index site
      c.checkSitesFrom (index + 1) sites

def checkSites (c : Circuit) (sites : List CutSite) : Except Fault Unit :=
  c.checkSitesFrom 0 sites

def checkCuts (c : Circuit) (cuts : List WireCut) : Except Fault Unit :=
  c.checkSites (cuts.map WireCut.site)

theorem checkSite_site (c : Circuit) (index : Nat) (cut : WireCut) :
    c.checkSite index cut.site =
      if ¬(0 ≤ cut.position ∧ cut.position ≤ c.data.length) then
        .error (.cutOutside index cut.position c.data.length)
      else if ¬(0 ≤ cut.qubit ∧ cut.qubit < c.numQubits) then
        .error (.cutOffCircuit index cut.qubit c.numQubits)
      else if cut.qubit ∉ c.touched then .error (.cutIdle index cut.qubit)
      else .ok () := by
  simp [checkSite, WireCut.site]

end Circuit
end QuasiCut
