import QuasiCut.Fragment
import QuasiCut.Overhead
import QuasiCut.Report

/-! Planning wire cuts for a device. A cut is proposed after each instruction on several qubits,
until no fragment is wider than the device. -/

namespace QuasiCut

namespace Circuit

/-- One cut after each instruction on several qubits, on its second qubit. -/
def proposalsFrom : Nat → List Instruction → List WireCut
  | _, [] => []
  | position, i :: rest =>
      let later := proposalsFrom (position + 1) rest
      if i.isBarrier then later
      else match i.qubits with
        | _ :: second :: _ => ⟨position + 1, second⟩ :: later
        | _ => later

def proposals (c : Circuit) : List WireCut := proposalsFrom 0 c.data

def placeCuts (c : Circuit) (budget : Number) (placed : List WireCut) :
    List WireCut → Report (List WireCut)
  | [] => do
      Report.emit (.overBudget placed.length budget)
      return placed
  | cut :: rest => do
      let extended := placed ++ [cut]
      let widths := c.fragmentWidths extended
      Report.emit (.proposed cut widths)
      if withinBudget widths budget then
        Report.emit (.found extended.length)
        return extended
      else c.placeCuts budget extended rest

/-- Cuts that bring every fragment within the budget, or all proposals if they do not. A circuit
that fits uncut is left alone. -/
def findCuts (c : Circuit) (budget : Number) : Report (List WireCut) :=
  if budget.below 1 then Report.fail (.budgetBelowOne budget)
  else if budget.atLeast c.touched.length then pure []
  else if c.cutsFit [] budget then pure []
  else c.placeCuts budget [] c.proposals

end Circuit

structure Device where
  width : Number
  deriving DecidableEq, Repr

structure Plan where
  cuts : List WireCut
  widths : List Nat
  fits : Bool
  overhead : Binary64
  deriving DecidableEq, Repr

namespace Device

def make (width : Number) : Except Fault Device :=
  if width.below 1 then .error .deviceTooNarrow else .ok ⟨width⟩

def sameAs (d other : Device) : Bool := d.width.sameValue other.width

def plan (d : Device) (c : Circuit) : Report Plan := do
  let cuts ← c.findCuts d.width
  let widths := c.fragmentWidths cuts
  let overhead ← samplingOverhead cuts.length 0
  return ⟨cuts, widths, Circuit.withinBudget widths d.width, overhead⟩

end Device
end QuasiCut
