import QuasiCut.Number
import QuasiCut.Text.Quoted

/-! Everything that can be refused, with the one text each refusal is reported by. -/

namespace QuasiCut

inductive Half where
  | a
  | b
  deriving DecidableEq, Repr

def Half.letter : Half → String
  | .a => "a"
  | .b => "b"

inductive Fault where
  -- numbers of the caller
  | unreadable (text : String)
  | tooManyDigits (digits : Nat)
  | unprintable
  | notWhole (number : Binary64)
  -- circuits
  | negativeRegister
  | registerTooLarge
  | registerExists (name : String)
  | notBitCounts (counts : List Number)
  | indexOutOfRange (index : Int) (size : Nat)
  | notAnIndex (number : Binary64)
  | duplicateBits
  | noSuchInstruction
  | wordOverflow
  -- wire cuts
  | cutOutside (cut : Nat) (position : Number) (length : Nat)
  | cutOffCircuit (cut : Nat) (qubit : Number) (qubits : Nat)
  | cutIdle (cut : Nat) (qubit : Number)
  | positionNotWhole
  | markerOnNothing
  -- planning
  | budgetBelowOne (budget : Number)
  | deviceTooNarrow
  -- gate cuts
  | gateRepeated
  | gateOutOfRange (gate : Number) (length : Nat)
  | gateNotWhole
  -- bases and configurations
  | unsupported (name : String)
  | noTerms
  | tooManySides
  | unevenSides (term : Nat) (sides : Nat) (expected : Nat)
  | coefficientCount
  | configurationOutOfRange (index : Number) (total : Nat)
  | termOutOfRange
  | indexTooWide
  | termNotWhole
  | coefficientNotWhole
  | limitNotACount
  -- lists walked in step
  | shorterArgument (argument : Nat)
  | longerArgument (argument : Nat)
  | tooFewWorkers (workers : Number)
  | rejected (reason : String)
  -- knitting
  | expectationCount (expectations : Nat) (coefficients : Nat)
  | fragmentCount (first : Nat) (second : Nat)
  | negativeCutCount (wires : Number) (gates : Number)
  | precisionNotPositive (precision : Number)
  -- arithmetic
  | integerTooLarge
  | quotientTooLarge
  | powerOverflow
  | floorOfInfinity
  | floorOfNan
  -- forging
  | negativeBits (bits : Number)
  | bitsNotWhole
  | negativeQubit (half : Half)
  | duplicateQubit (half : Half)
  | negativeBitstring (half : Half)
  -- sessions
  | noSuchSlot (slot : String)
  | noSuchResult
  deriving DecidableEq, Repr

namespace Fault

inductive Kind where
  | circuit
  | index
  | key
  | overflow
  | type
  | value
  deriving DecidableEq, Repr

def kind : Fault → Kind
  | negativeRegister | registerTooLarge | registerExists _ | notBitCounts _ | indexOutOfRange ..
  | notAnIndex _ | duplicateBits => .circuit
  | markerOnNothing | termOutOfRange | indexTooWide | noSuchInstruction | noSuchResult => .index
  | noSuchSlot _ => .key
  | wordOverflow | integerTooLarge | quotientTooLarge | powerOverflow | floorOfInfinity => .overflow
  | notWhole _ | positionNotWhole | gateNotWhole | termNotWhole | coefficientNotWhole
  | bitsNotWhole => .type
  | _ => .value

def argumentsBefore (n : Nat) : String :=
  if n ≤ 2 then "argument 1" else s!"arguments 1-{n - 1}"

def kindsText (numbers : List Number) : String :=
  let kindText : Number → String
    | .integer _ => "'int'"
    | .binary _ => "'float'"
  "[" ++ ", ".intercalate (numbers.map kindText) ++ "]"

def tupleText : List Number → String
  | [number] => "(" ++ number.text ++ ",)"
  | numbers => "(" ++ ", ".intercalate (numbers.map Number.text) ++ ")"

def digitsText (told : String) : String :=
  let limit := Number.digitLimit
  s!"Exceeds the limit ({limit} digits) for integer string conversion{told}; " ++
    "use sys.set_int_max_str_digits() to increase the limit"

def message : Fault → String
  | unreadable text => "could not convert string to float: " ++ Text.quoted text
  | tooManyDigits digits => digitsText s!": value has {digits} digits"
  | unprintable => digitsText ""
  | notWhole _ => "'float' object cannot be interpreted as an integer"
  | negativeRegister => "Register size must be non-negative."
  | registerTooLarge => "Register size too large."
  | registerExists name => s!"register name \"{name}\" already exists"
  | notBitCounts counts =>
      let kinds := kindsText counts
      let shown := tupleText counts
      s!"Circuit args must be Registers or integers. ({kinds} '{shown}' was provided)"
  | indexOutOfRange index size => s!"Index {index} out of range for size {size}."
  | notAnIndex number =>
      let shown := number.text
      s!"Invalid bit index: '{shown}' of type 'float'"
  | duplicateBits => "duplicate bit arguments"
  | noSuchInstruction => "index out of range"
  | wordOverflow => "Python int too large to convert to C long"
  | cutOutside cut position length =>
      let shown := position.text
      s!"Wire cut {cut} has position ({shown}), which lies outside a circuit with " ++
        s!"{length} instructions."
  | cutOffCircuit cut qubit qubits =>
      let shown := qubit.text
      s!"Wire cut {cut} severs qubit ({shown}), but the circuit has {qubits} qubits."
  | cutIdle cut qubit =>
      let shown := qubit.text
      s!"Wire cut {cut} severs qubit ({shown}), which is not acted on by any instruction in " ++
        "the circuit."
  | positionNotWhole =>
      "slice indices must be integers or None or have an __index__ method"
  | markerOnNothing => "tuple index out of range"
  | budgetBelowOne budget =>
      let shown := budget.text
      s!"max_fragment_qubits must be at least 1 (got {shown})."
  | deviceTooNarrow => "qubits_per_subcircuit must be a positive definite integer."
  | gateRepeated => "Each gate may be cut at most once."
  | gateOutOfRange gate length =>
      let shown := gate.text
      s!"Gate index ({shown}) is out of range for a circuit with {length} instructions."
  | gateNotWhole => "argument 'index': 'float' object cannot be interpreted as an integer"
  | unsupported name => s!"Instruction not supported: {name}"
  | noTerms => "Number of maps passed to QPDBasis must be nonzero."
  | tooManySides => "QPDBasis supports at most two sides."
  | unevenSides term sides expected =>
      "All maps passed to QPDBasis must act on the same number of sides. " ++
        s!"(Index {term} contains a {sides}-tuple but should contain a {expected}-tuple.)"
  | coefficientCount => "Coefficients must be same length as maps."
  | configurationOutOfRange index total =>
      let shown := index.text
      if Nat.pow 10 Number.digitLimit ≤ total then digitsText ""
      else s!"Configuration index ({shown}) must be in the range [0, {total})."
  | termOutOfRange => "tuple index out of range"
  | indexTooWide => "cannot fit 'int' into an index-sized integer"
  | termNotWhole => "list indices must be integers or slices, not float"
  | coefficientNotWhole => "tuple indices must be integers or slices, not float"
  | limitNotACount =>
      "Stop argument for islice() must be None or an integer: 0 <= x <= sys.maxsize."
  | shorterArgument argument =>
      let others := argumentsBefore argument
      s!"zip() argument {argument} is shorter than {others}"
  | longerArgument argument =>
      let others := argumentsBefore argument
      s!"zip() argument {argument} is longer than {others}"
  | tooFewWorkers workers =>
      let shown := workers.text
      s!"max_workers must be at least 1 (got {shown})."
  | rejected reason => reason
  | expectationCount expectations coefficients =>
      s!"The number of expectation values ({expectations}) must equal the number of " ++
        s!"coefficients ({coefficients})."
  | fragmentCount first second =>
      s!"The number of prefix expectation values ({first}) must equal the number of suffix " ++
        s!"expectation values ({second})."
  | negativeCutCount wires gates =>
      let shownWires := wires.text
      let shownGates := gates.text
      s!"The number of cuts must be non-negative (got {shownWires} wire cuts and {shownGates} " ++
        "gate cuts)."
  | precisionNotPositive precision =>
      let shown := precision.text
      s!"target_precision must be positive (got {shown})."
  | integerTooLarge => "int too large to convert to float"
  | quotientTooLarge => "integer division result too large for a float"
  | powerOverflow => "(34, 'Numerical result out of range')"
  | floorOfInfinity => "cannot convert float infinity to integer"
  | floorOfNan => "cannot convert float NaN to integer"
  | negativeBits bits =>
      let shown := bits.text
      s!"Bitstring ({shown}) must be non-negative."
  | bitsNotWhole => "unsupported operand type(s) for >>: 'float' and 'int'"
  | negativeQubit half =>
      let letter := half.letter
      s!"system_{letter}_qubits contains a negative qubit index."
  | duplicateQubit half =>
      let letter := half.letter
      s!"system_{letter}_qubits contains duplicate qubit indices."
  | negativeBitstring half =>
      let letter := half.letter
      s!"bitstrings_{letter} contains a negative bitstring."
  | noSuchSlot slot => Text.quoted slot
  | noSuchResult => "list index out of range"

end Fault
end QuasiCut
