import QuasiCut.WireCut.Basic

/-! The outcome of cutting a circuit once and for all: its parts, where they were cut, and the
sampling overhead of putting them together again. -/

namespace QuasiCut

inductive CutKind where
  | wire
  | gate
  deriving DecidableEq, Repr

structure CutRecord where
  subcircuit : Nat
  qubit : Number
  kind : CutKind
  deriving DecidableEq, Repr

structure CutCircuit where
  subcircuits : List Circuit
  cuts : List CutRecord
  overhead : Binary64

end QuasiCut
