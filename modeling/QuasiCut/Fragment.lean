import QuasiCut.WireCut.Basic

/-! Fragments of a cut circuit. A wire is cut into segments, an instruction joins the segments it
acts on, and a fragment is a set of joined segments. Only the segments that are still open can be
joined again, so a fragment is its width and the qubits whose open segment it holds. -/

namespace QuasiCut

structure Fragment where
  width : Nat
  wires : List Int
  deriving DecidableEq, Repr

namespace Fragment

def meets (f : Fragment) (qubits : List Int) : Bool := qubits.any f.wires.contains

def sever (qubits : List Int) (f : Fragment) : Fragment :=
  { f with wires := f.wires.filter (!qubits.contains ·) }

def unopened (qubits : List Int) (fragments : List Fragment) : List Int :=
  qubits.filter fun q => !fragments.any (·.wires.contains q)

def totalWidth : List Fragment → Nat
  | [] => 0
  | f :: rest => f.width + totalWidth rest

def union (qubits : List Int) (fragments : List Fragment) : Fragment :=
  let met := fragments.filter (·.meets qubits)
  let opened := unopened qubits fragments
  ⟨totalWidth met + opened.length, met.flatMap wires ++ opened⟩

/-- Joins what an instruction acts on. The union stands where the first of its parts stood, and a
new fragment stands last, so fragments stay in the order of their first instruction. -/
def join (qubits : List Int) (fragments : List Fragment) : List Fragment :=
  if qubits.isEmpty then fragments
  else
    fragments.takeWhile (!·.meets qubits) ++ union qubits fragments ::
      (fragments.dropWhile (!·.meets qubits)).filter (!·.meets qubits)

def cutQubits (cuts : List WireCut) (position : Nat) : List Int :=
  (cuts.filter fun cut => decide (cut.position = (position : Int))).map WireCut.qubit

/-- Passes one instruction: first the cuts before it, then what it joins. A barrier joins
nothing. -/
def step (cuts : List WireCut) (position : Nat) (i : Instruction) (fragments : List Fragment) :
    List Fragment :=
  let severed := fragments.map (sever (cutQubits cuts position))
  if i.isBarrier then severed else join i.qubits severed

def scan (cuts : List WireCut) : Nat → List Fragment → List Instruction → List Fragment
  | _, fragments, [] => fragments
  | position, fragments, i :: rest =>
      scan cuts (position + 1) (step cuts position i fragments) rest

end Fragment

namespace Circuit

def fragments (c : Circuit) (cuts : List WireCut) : List Fragment :=
  Fragment.scan cuts 0 [] c.data

/-- The number of segments of each fragment, in the order of their first instruction. Cuts that
name no wire or no place of the circuit change nothing. -/
def fragmentWidths (c : Circuit) (cuts : List WireCut) : List Nat :=
  (c.fragments cuts).map Fragment.width

def withinBudget (widths : List Nat) (budget : Number) : Bool :=
  widths.all fun width => budget.atLeast width

def cutsFit (c : Circuit) (cuts : List WireCut) (budget : Number) : Bool :=
  withinBudget (c.fragmentWidths cuts) budget

end Circuit
end QuasiCut
