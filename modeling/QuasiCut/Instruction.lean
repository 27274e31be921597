import QuasiCut.Fault
import QuasiCut.Index

/-! Instructions and the places they name in a register. -/

namespace QuasiCut

/-- A named operation. An index that is negative counts from the end of its register. -/
structure Instruction where
  name : String
  qubits : List Int
  params : List Binary64
  clbits : List Int
  deriving DecidableEq, Repr

structure Operation where
  name : String
  qubits : List Number
  params : List Binary64
  clbits : List Number
  deriving DecidableEq, Repr

def Operation.single (name : String) (qubit : Number) : Operation := ⟨name, [qubit], [], []⟩

def Instruction.operation (i : Instruction) : Operation :=
  ⟨i.name, i.qubits.map .integer, i.params, i.clbits.map .integer⟩

def Placed (size : Nat) (indices : List Int) : Prop :=
  indices.Nodup ∧ ∀ index ∈ indices, 0 ≤ index ∧ index < size

instance (size : Nat) (indices : List Int) : Decidable (Placed size indices) :=
  inferInstanceAs (Decidable (_ ∧ _))

def resolveIndex (size : Nat) (index : Int) : Except Fault Int :=
  match place? size index with
  | some place => .ok place
  | none => .error (.indexOutOfRange index size)

def resolveIndices (size : Nat) : List Int → Except Fault (List Int)
  | [] => .ok []
  | index :: indices =>
      match resolveIndex size index, resolveIndices size indices with
      | .ok place, .ok places => .ok (place :: places)
      | .error fault, _ => .error fault
      | .ok _, .error fault => .error fault

theorem resolveIndex_bounds {size : Nat} {index place : Int}
    (resolved : resolveIndex size index = .ok place) : 0 ≤ place ∧ place < size := by
  unfold resolveIndex at resolved
  split at resolved
  · next position found =>
      injection resolved with resolved
      have inside := place?_lt found
      omega
  · cases resolved

theorem resolveIndices_bounds {size : Nat} {indices places : List Int}
    (resolved : resolveIndices size indices = .ok places) :
    ∀ place ∈ places, 0 ≤ place ∧ place < size := by
  induction indices generalizing places with
  | nil =>
      injection resolved with resolved
      simp [← resolved]
  | cons index indices ih =>
      unfold resolveIndices at resolved
      split at resolved
      · next first rest =>
          injection resolved with resolved
          subst resolved
          intro place member
          rcases List.mem_cons.mp member with rfl | member
          · exact resolveIndex_bounds first
          · exact ih rest place member
      · cases resolved
      · cases resolved

theorem resolveIndex_of_bounds {size : Nat} {index : Int} (low : 0 ≤ index)
    (high : index < size) : resolveIndex size index = .ok index := by
  obtain ⟨position, rfl⟩ := Int.eq_ofNat_of_zero_le low
  rw [resolveIndex, place?_natCast (by omega)]

theorem resolveIndices_of_bounds {size : Nat} {indices : List Int}
    (bounds : ∀ index ∈ indices, 0 ≤ index ∧ index < size) :
    resolveIndices size indices = .ok indices := by
  induction indices with
  | nil => rfl
  | cons index indices ih =>
      have first := bounds index List.mem_cons_self
      have rest := ih fun i member => bounds i (List.mem_cons_of_mem _ member)
      simp [resolveIndices, resolveIndex_of_bounds first.1 first.2, rest]

namespace Instruction

def isBarrier (i : Instruction) : Bool := i.name == "barrier"

def single (name : String) (qubit : Int) : Instruction := ⟨name, [qubit], [], []⟩

def FitsIn (i : Instruction) (qubits clbits : Nat) : Prop :=
  Placed qubits i.qubits ∧ Placed clbits i.clbits

instance (i : Instruction) (qubits clbits : Nat) : Decidable (i.FitsIn qubits clbits) :=
  inferInstanceAs (Decidable (_ ∧ _))

theorem single_fitsIn (name : String) {qubit : Int} {qubits : Nat}
    (inside : 0 ≤ qubit ∧ qubit < qubits) (clbits : Nat) :
    (single name qubit).FitsIn qubits clbits := by
  simp [FitsIn, Placed, single, inside]

/-- The instruction with its indices counted from zero: qubits first, then classical bits, and
only then is a bit named twice refused. -/
def resolve (i : Instruction) (qubits clbits : Nat) : Except Fault Instruction :=
  match resolveIndices qubits i.qubits with
  | .error fault => .error fault
  | .ok qs =>
      match resolveIndices clbits i.clbits with
      | .error fault => .error fault
      | .ok cs =>
          if qs.Nodup ∧ cs.Nodup then .ok { i with qubits := qs, clbits := cs }
          else .error .duplicateBits

theorem fitsIn_of_resolve {i r : Instruction} {qubits clbits : Nat}
    (resolved : i.resolve qubits clbits = .ok r) : r.FitsIn qubits clbits := by
  unfold resolve at resolved
  split at resolved
  · cases resolved
  · next qs placed =>
      split at resolved
      · cases resolved
      · next cs clplaced =>
          split at resolved
          · next distinct =>
              injection resolved with resolved
              subst resolved
              exact ⟨⟨distinct.1, resolveIndices_bounds placed⟩,
                ⟨distinct.2, resolveIndices_bounds clplaced⟩⟩
          · cases resolved

theorem resolve_of_fitsIn {i : Instruction} {qubits clbits : Nat}
    (fits : i.FitsIn qubits clbits) : i.resolve qubits clbits = .ok i := by
  obtain ⟨⟨qnodup, qbounds⟩, ⟨cnodup, cbounds⟩⟩ := fits
  simp [resolve, resolveIndices_of_bounds qbounds, resolveIndices_of_bounds cbounds, qnodup,
    cnodup]

end Instruction

end QuasiCut
