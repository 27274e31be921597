import QuasiCut.Arithmetic
import QuasiCut.Batch
import QuasiCut.Report

/-! Entanglement forging: a state of two halves as a Schmidt sum. Each term prepares one bitstring
on either half, applies that half's ansatz, and has the square of its coefficient as weight. -/

namespace QuasiCut

def span (qubits : List Int) : Int := qubits.max?.getD (-1) + 1

/-- The qubits whose bit is set: the first qubit has the lowest bit. -/
def setQubitsFrom {ι : Type} (bits : Nat) : Nat → List ι → List ι
  | _, [] => []
  | place, qubit :: rest =>
      let later := setQubitsFrom bits (place + 1) rest
      if bits.testBit place then qubit :: later else later

def prepareBits (qubits : List Int) (bits : Int) (width : Option Int) (name : Option String) :
    Except Fault Circuit := do
  if bits < 0 then .error (.negativeBits bits)
  let blank ← Circuit.onBits (width.getD (span qubits)) 0
  let named := { blank with name := name }
  named.appendAll ((setQubitsFrom bits.toNat 0 qubits).map (Instruction.single "x"))

def spanOf : List Number → Number
  | [] => .integer 0
  | first :: rest => (rest.foldl Number.larger first).next

/-- The prepared circuit for numbers that are given in any way. The bits must be an integer if
there is a qubit to ask for one, and a qubit that is flipped must be one; no other is looked at. -/
def prepareBitsOn (qubits : List Number) (bits : Number) (width : Option Number)
    (name : Option String) : Except Fault Circuit := do
  if bits.below 0 then .error (.negativeBits bits)
  let blank ← Circuit.onCounts (width.getD (spanOf qubits)) none
  let named := { blank with name := name }
  if qubits.isEmpty then return named
  let set ← bits.toIndex .bitsNotWhole
  named.applyAll ((setQubitsFrom set.toNat 0 qubits).map (Operation.single "x"))

theorem setQubitsFrom_map {ι κ : Type} (f : ι → κ) (bits place : Nat) (qubits : List ι) :
    setQubitsFrom bits place (qubits.map f) = (setQubitsFrom bits place qubits).map f := by
  induction qubits generalizing place with
  | nil => rfl
  | cons qubit rest ih =>
      simp only [List.map_cons, setQubitsFrom, ih]
      split <;> rfl

theorem spanOf_integers (qubits : List Int) : spanOf (qubits.map .integer) = span qubits := by
  cases qubits with
  | nil => rfl
  | cons first rest =>
      have largest : (rest.map Number.integer).foldl Number.larger first =
          Number.integer (rest.foldl max first) := by
        induction rest generalizing first with
        | nil => rfl
        | cons second rest ih => simp [ih]
      simp only [List.map_cons, spanOf, span, largest, Number.next_integer, List.max?_cons',
        Option.getD_some]

theorem prepareBitsOn_integers (qubits : List Int) (bits : Int) (width : Option Int)
    (name : Option String) :
    prepareBitsOn (qubits.map .integer) bits (width.map .integer) name =
      prepareBits qubits bits width name := by
  have wide : (width.map Number.integer).getD (spanOf (qubits.map .integer)) =
      Number.integer (width.getD (span qubits)) := by
    cases width <;> simp [spanOf_integers]
  simp only [prepareBitsOn, prepareBits, Number.below_integer, decide_eq_true_eq, wide,
    Circuit.onCounts_integer, Number.toIndex, setQubitsFrom_map]
  have flips (flipped : List Int) : (flipped.map Number.integer).map (Operation.single "x") =
      (flipped.map (Instruction.single "x")).map Instruction.operation := by
    simp [Operation.single, Instruction.single, Instruction.operation]
  simp only [flips]
  by_cases negative : bits < 0
  · simp [negative, bind, Except.bind]
  · simp only [negative, if_false]
    cases Circuit.onBits (width.getD (span qubits)) 0 with
    | error fault => rfl
    | ok blank =>
        cases qubits with
        | nil => rfl
        | cons first rest => exact Circuit.applyAll_operations _ _

structure Subsystem (ν : Type) where
  qubits : List ν
  bitstrings : List ν
  deriving DecidableEq, Repr

structure Forging (ν : Type) where
  a : Subsystem ν
  b : Subsystem ν
  coefficients : List Number
  deriving DecidableEq, Repr

structure ForgedTerm where
  a : Circuit
  b : Circuit
  weight : Binary64
  deriving DecidableEq

namespace Subsystem

def checkQubits (s : Subsystem Number) (half : Half) : Except Fault Unit :=
  if s.qubits.any (·.below 0) then .error (.negativeQubit half)
  else if ¬Number.distinct s.qubits then .error (.duplicateQubit half)
  else .ok ()

def checkBitstrings (s : Subsystem Number) (half : Half) : Except Fault Unit :=
  if s.bitstrings.any (·.below 0) then .error (.negativeBitstring half)
  else .ok ()

def numbers (s : Subsystem Int) : Subsystem Number :=
  ⟨s.qubits.map .integer, s.bitstrings.map .integer⟩

/-- A prepared circuit followed by an ansatz, which acts on the first qubits and adds its phase. -/
def follow (prepared ansatz : Circuit) : Except Fault Circuit :=
  let blank := { Circuit.empty prepared.qregs ansatz.cregs with
    name := prepared.name, phase := prepared.phase + ansatz.phase }
  blank.appendAll (prepared.data ++ ansatz.data)

def circuit (s : Subsystem Int) (bits : Int) (ansatz : Circuit) : Except Fault Circuit := do
  let width := max (span s.qubits) ansatz.numQubits
  let prepared ← prepareBits s.qubits bits (some width) none
  follow prepared ansatz

def circuitOn (s : Subsystem Number) (bits : Number) (ansatz : Circuit) :
    Except Fault Circuit := do
  let width := (spanOf s.qubits).larger (.ofNat ansatz.numQubits)
  let prepared ← prepareBitsOn s.qubits bits (some width) none
  follow prepared ansatz

theorem circuitOn_numbers (s : Subsystem Int) (bits : Int) (ansatz : Circuit) :
    s.numbers.circuitOn bits ansatz = s.circuit bits ansatz := by
  have prepared := prepareBitsOn_integers s.qubits bits
    (some (max (span s.qubits) ansatz.numQubits)) none
  simp only [Option.map_some] at prepared
  simp only [circuitOn, circuit, numbers, spanOf_integers, Number.ofNat, Number.larger_integer,
    prepared]

end Subsystem

namespace Forging

def checkNumbers (f : Forging Number) : Except Fault Unit := do
  f.a.checkQubits .a
  f.b.checkQubits .b
  f.a.checkBitstrings .a
  f.b.checkBitstrings .b

def numbers (f : Forging Int) : Forging Number := ⟨f.a.numbers, f.b.numbers, f.coefficients⟩

def check (f : Forging Int) : Except Fault Unit := f.numbers.checkNumbers

def numTerms {ν : Type} (f : Forging ν) : Nat :=
  min f.coefficients.length (min f.a.bitstrings.length f.b.bitstrings.length)

def schmidtTerms {ν : Type} (f : Forging ν) : List (Number × ν × ν) :=
  f.coefficients.zip (f.a.bitstrings.zip f.b.bitstrings)

def termWith {ν : Type} (build : Subsystem ν → ν → Circuit → Except Fault Circuit)
    (square : Binary64 → Except Fault Binary64) (f : Forging ν) (ansatz : Half → Nat → Circuit) :
    (Number × ν × ν) × Nat → Except Fault ForgedTerm
  | ((coefficient, bitsA, bitsB), index) => do
      let a ← build f.a bitsA (ansatz .a index)
      let b ← build f.b bitsB (ansatz .b index)
      let value ← coefficient.toBinary64
      let weight ← square value
      return ⟨a, b, weight⟩

def termsWith {ν : Type} (build : Subsystem ν → ν → Circuit → Except Fault Circuit)
    (square : Binary64 → Except Fault Binary64) (f : Forging ν) (ansatz : Half → Nat → Circuit)
    (workers : Option Number) : Report (List ForgedTerm) := do
  if f.numTerms < f.coefficients.length then
    Report.emit (.truncated f.numTerms f.coefficients.length)
  Report.ofExcept (Batch.run workers (f.termWith build square ansatz) f.schmidtTerms.zipIdx)

/-- All terms in order. The ansatz of a half may differ from term to term. How a coefficient is
squared is left open, since libraries round a square in different ways. -/
def terms (square : Binary64 → Except Fault Binary64) (f : Forging Int) :
    (Half → Nat → Circuit) → Option Number → Report (List ForgedTerm) :=
  f.termsWith Subsystem.circuit square

def termsOf (f : Forging Number) :
    (Half → Nat → Circuit) → Option Number → Report (List ForgedTerm) :=
  f.termsWith Subsystem.circuitOn Binary64.square

theorem termsOf_numbers (f : Forging Int) (ansatz : Half → Nat → Circuit)
    (workers : Option Number) :
    f.numbers.termsOf ansatz workers = f.terms Binary64.square ansatz workers := by
  have given : f.numbers.schmidtTerms =
      f.schmidtTerms.map (Prod.map id (Prod.map Number.integer Number.integer)) := by
    simp only [schmidtTerms, numbers, Subsystem.numbers]
    rw [List.zip_map, List.zip_map_right]
  have same : f.numbers.termWith Subsystem.circuitOn Binary64.square ansatz ∘
      Prod.map (Prod.map id (Prod.map Number.integer Number.integer)) id =
        f.termWith Subsystem.circuit Binary64.square ansatz := by
    funext ⟨⟨coefficient, bitsA, bitsB⟩, index⟩
    simp only [Function.comp, Prod.map, id, termWith, numbers, Subsystem.circuitOn_numbers]
  have many : f.numbers.numTerms = f.numTerms := by
    simp [numTerms, numbers, Subsystem.numbers]
  simp only [termsOf, terms, termsWith, Batch.run, many, given, List.zipIdx_map, List.mapM_map,
    same]
  rfl

end Forging
end QuasiCut
