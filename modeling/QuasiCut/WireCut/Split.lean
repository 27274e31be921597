import QuasiCut.Basis.Standard
import QuasiCut.Batch
import QuasiCut.Configuration

/-! Splitting a circuit in two at its first cut. Each configuration of the cuts gives one pair of
circuits: state preparations end the first, and changes of basis begin the second. -/

namespace QuasiCut

structure LocalOp (ι : Type) where
  name : String
  qubit : ι
  deriving DecidableEq, Repr

def LocalOp.instruction (op : LocalOp Int) : Instruction := Instruction.single op.name op.qubit

/-- What a configuration puts before and after the cuts, and its coefficient. -/
structure Insertion (ι α : Type) where
  before : List (LocalOp ι)
  after : List (LocalOp ι)
  coeff : α
  deriving DecidableEq, Repr

structure SplitPair (α : Type) where
  before : Circuit
  after : Circuit
  coeff : α
  deriving DecidableEq

variable {ι α : Type} [One α] [Mul α] [Coefficient α]

namespace WireCut

def bases {κ : Type} (cuts : List κ) : List (Basis α) := cuts.map fun _ => Basis.wire

def operations {α : Type} (side : Nat) (chosen : List (ι × Basis α × Nat)) : List (LocalOp ι) :=
  chosen.flatMap fun (qubit, basis, term) =>
    (basis.side term side).map fun name => ⟨name, qubit⟩

def insertionOn (qubits : List ι) (index : Int) : Except Fault (Insertion ι α) := do
  let bases : List (Basis α) := bases qubits
  let chosen ← Configuration.choices bases index
  let coeff ← Configuration.weight bases (chosen.map Number.ofNat)
  let terms := qubits.zip (bases.zip chosen)
  return { before := operations 0 terms, after := operations 1 terms, coeff }

def insertion (cuts : List WireCut) (index : Int) : Except Fault (Insertion Int α) :=
  insertionOn (cuts.map qubit) index

/-- What a configuration inserts whose number is given in any way. A binary64 number chooses no
terms, so there must be none to choose. -/
def insertionOf (qubits : List ι) : Number → Except Fault (Insertion ι α)
  | .integer index => insertionOn qubits index
  | .binary index => do
      let chosen ← Configuration.choicesOf (bases qubits : List (Basis α)) (.binary index)
      let _ ← chosen.mapM (Number.toIndex .termNotWhole)
      insertionOn qubits 0

def splitPosition (cuts : List WireCut) (length : Nat) : Int :=
  match cuts with
  | [] => length
  | cut :: _ => cut.position

end WireCut

def CutSite.truncated (site : CutSite) : Except Fault WireCut :=
  match site.qubit with
  | .integer qubit => do return ⟨← site.position.truncate, qubit⟩
  | .binary x => .error (.notAnIndex x)

namespace Circuit

def splitPair (c : Circuit) (cuts : List WireCut) (index : Nat) : Except Fault (SplitPair α) := do
  let split := (WireCut.splitPosition cuts c.data.length).toNat
  let inserted : Insertion Int α ← WireCut.insertion cuts index
  let before ← (c.slice 0 split).appendAll (inserted.before.map LocalOp.instruction)
  let after ← c.rebuild (inserted.after.map LocalOp.instruction ++ c.data.drop split)
  return ⟨before, after, inserted.coeff⟩

/-- The pairs of all configurations of the cuts, in order. The workers are checked before the
configurations are listed, since there may be very many. -/
def cutWires (c : Circuit) (cuts : List WireCut) (workers : Option Number) :
    Report (List (SplitPair α)) := do
  c.checkCuts cuts
  let total := Configuration.count (WireCut.bases cuts : List (Basis α))
  Report.emit (.cutting cuts.length (WireCut.splitPosition cuts c.data.length) total)
  Batch.checkWorkers workers
  Report.ofExcept (Batch.run workers (c.splitPair cuts) (List.range total))

def cutWiresAt (c : Circuit) (sites : List CutSite) (workers : Option Number) :
    Report (List (SplitPair α)) := do
  c.checkSites sites
  let position := (sites.map CutSite.position).headD (.integer c.data.length)
  let cuts : Except Fault (List WireCut) := do
    let _ ← position.toIndex .positionNotWhole
    sites.mapM CutSite.truncated
  match cuts with
  | .ok cuts => c.cutWires cuts workers
  | .error fault =>
      let total := Configuration.count (WireCut.bases sites : List (Basis α))
      Report.emit (.cutting sites.length (← position.truncate) total)
      Batch.checkWorkers workers
      Report.fail fault

end Circuit
end QuasiCut
