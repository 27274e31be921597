import QuasiCut.Basis.Standard
import QuasiCut.Configuration
import QuasiCut.CutCircuit
import QuasiCut.Overhead

/-! Cutting gates: an instruction on two qubits is replaced by a weighted sum of terms that act on
each of them alone. -/

namespace QuasiCut

structure GateTerm (α : Type) where
  operations : List Instruction
  weight : α
  deriving DecidableEq, Repr

structure Experiment (α : Type) where
  circuit : Circuit
  weight : α
  deriving DecidableEq

structure GateCutting (α : Type) where
  experiments : List (Experiment α)
  summary : CutCircuit

variable {α : Type} [One α] [Mul α] [Coefficient α]

namespace Basis

def locateTerm (term : Term) (qubits : List Int) : Except Fault (List Instruction) := do
  let sides ← Lockstep.zip qubits term
  return sides.flatMap fun (qubit, side) => side.map fun name => Instruction.single name qubit

def locate {α : Type} (b : Basis α) (qubits : List Int) : Except Fault (List (GateTerm α)) := do
  let located ← (b.terms.zip b.coeffs).mapM fun (term, coeff) => do
    let operations ← locateTerm term qubits
    return ⟨operations, coeff⟩
  Lockstep.check [b.terms.length, b.coeffs.length]
  return located

end Basis

namespace Instruction

def isCuttable (i : Instruction) : Bool :=
  ["cx", "cz", "swap"].contains i.name && i.qubits.length == 2

def cutTerms (i : Instruction) : Except Fault (List (GateTerm α)) := do
  let basis : Basis α ← Basis.standard i.name
  basis.locate i.qubits

/-- The terms that replace an instruction; one that cannot be cut is its own only term. -/
def gateTerms (i : Instruction) : Report (List (GateTerm α)) :=
  if i.isCuttable then Report.ofExcept i.cutTerms
  else do
    Report.emit (.kept i.name)
    return [⟨[i], 1⟩]

end Instruction

namespace Circuit

def checkGates (c : Circuit) (gates : List Number) : Except Fault Unit :=
  if ¬Number.distinct gates then .error .gateRepeated
  else
    match gates.find? fun gate => !(gate.atLeast 0 && gate.below c.data.length) with
    | some gate => .error (.gateOutOfRange gate c.data.length)
    | none => .ok ()

def cuttable (c : Circuit) (gates : List Int) : List (Nat × Instruction) :=
  (gates.filterMap fun gate => (c.data[gate.toNat]?).map fun i => (gate.toNat, i)).filter
    (·.2.isCuttable)

def replaceFrom (replacements : List (Nat × List Instruction)) :
    Nat → List Instruction → List Instruction
  | _, [] => []
  | position, i :: rest =>
      (replacements.lookup position).getD [i] ++ replaceFrom replacements (position + 1) rest

def chosenTerms {α : Type} (located : List (Nat × List (GateTerm α))) (chosen : List Nat) :
    List (Nat × List Instruction) :=
  (located.zip chosen).map fun ((position, terms), term) =>
    (position, ((terms[term]?).map GateTerm.operations).getD [])

def expand {α : Type} (c : Circuit) (located : List (Nat × List (GateTerm α)))
    (chosen : List Nat) : Except Fault Circuit :=
  c.rebuild (replaceFrom (chosenTerms located chosen) 0 c.data)

/-- The experiments of all configurations of the listed gates; gates that cannot be cut stay. -/
def cutGates (c : Circuit) (gates : List Int) : Report (GateCutting α) := do
  c.checkGates (gates.map .integer)
  let cut := c.cuttable gates
  let skipped := gates.length - cut.length
  if skipped ≠ 0 then Report.emit (.skipped skipped)
  let bases : List (Basis α) ← cut.mapM fun (_, i) => Basis.standard i.name
  let located ← (cut.zip bases).mapM fun ((position, i), basis) => do
    let terms ← basis.locate i.qubits
    return (position, terms)
  let configurations ← Configuration.enumerate bases
  let experiments ← configurations.mapM fun (chosen, weight) => do
    let circuit ← c.expand located chosen
    return (⟨circuit, weight⟩ : Experiment α)
  let overhead ← samplingOverhead 0 cut.length
  return {
    experiments
    summary := {
      subcircuits := [c]
      cuts := cut.map fun (_, i) => ⟨0, i.qubits.headD 0, .gate⟩
      overhead } }

def cutGatesAt (c : Circuit) (gates : List Number) : Report (GateCutting α) := do
  c.checkGates gates
  let places ← gates.mapM fun gate => gate.toIndex .gateNotWhole
  c.cutGates places

end Circuit
end QuasiCut
