import QuasiCut.Instruction

/-! Circuits as lists of instructions on numbered qubits and classical bits. A circuit's
instructions always lie inside its registers and name no bit twice. -/

namespace QuasiCut

structure Register where
  name : String
  size : Nat
  deriving DecidableEq, Repr

namespace Register

def total : List Register → Nat
  | [] => 0
  | r :: rest => r.size + total rest

def make (name : String) (size : Int) : Except Fault Register :=
  if ¬isWordSized size then .error .wordOverflow
  else if size < 0 then .error .negativeRegister
  else if Nat.pow 2 32 ≤ size.toNat then .error .registerTooLarge
  else .ok ⟨name, size.toNat⟩

def repeated? (registers : List Register) : Option String :=
  let names := registers.map name
  (names.zipIdx.find? fun (name, place) => (names.take place).contains name).map (·.1)

def whole (name : String) (size : Int) : Except Fault (List Register) :=
  if size = 0 then .ok [] else (make name size).map ([·])

end Register

structure Circuit where
  name : Option String
  phase : Binary64
  qregs : List Register
  cregs : List Register
  data : List Instruction
  fits : ∀ i ∈ data, i.FitsIn (Register.total qregs) (Register.total cregs)
  deriving DecidableEq

namespace Circuit

def numQubits (c : Circuit) : Nat := Register.total c.qregs

def numClbits (c : Circuit) : Nat := Register.total c.cregs

def empty (qregs cregs : List Register) : Circuit :=
  ⟨none, Binary64.zero false, qregs, cregs, [], by simp⟩

/-- The empty circuit on registers whose names differ within either kind. A register of qubits
may share its name with one of classical bits. -/
def onRegisters (qregs cregs : List Register) : Except Fault Circuit :=
  match Register.repeated? qregs <|> Register.repeated? cregs with
  | some name => .error (.registerExists name)
  | none => .ok (empty qregs cregs)

def onBits (qubits clbits : Int) : Except Fault Circuit := do
  return empty (← Register.whole "q" qubits) (← Register.whole "c" clbits)

/-- A number of bits among those given: an integer, or a binary64 number that equals one. -/
def bitCount (counts : List Number) : Number → Except Fault Int
  | .binary (.infinite _) => .error .floorOfInfinity
  | count =>
      match count.whole? with
      | some n => .ok n
      | none => .error (.notBitCounts counts)

def onCounts (qubits : Number) (clbits : Option Number) : Except Fault Circuit := do
  let count := bitCount (qubits :: clbits.toList)
  let n ← count qubits
  let m ← (clbits.map count).getD (.ok 0)
  onBits n m

@[simp] theorem onCounts_integer (n : Int) : onCounts n none = onBits n 0 := rfl

def append (c : Circuit) (i : Instruction) : Except Fault Circuit :=
  match h : i.resolve c.numQubits c.numClbits with
  | .error fault => .error fault
  | .ok r => .ok { c with
      data := c.data ++ [r]
      fits := by
        intro j member
        rcases List.mem_append.mp member with member | member
        · exact c.fits j member
        · rw [List.mem_singleton.mp member]
          exact Instruction.fitsIn_of_resolve h }

def appendAll (c : Circuit) : List Instruction → Except Fault Circuit
  | [] => .ok c
  | i :: rest =>
      match c.append i with
      | .error fault => .error fault
      | .ok next => next.appendAll rest

def placeOf (size : Nat) : Number → Except Fault Int
  | .integer index => resolveIndex size index
  | .binary x => .error (.notAnIndex x)

def apply (c : Circuit) (op : Operation) : Except Fault Circuit := do
  let qubits ← op.qubits.mapM (placeOf c.numQubits)
  let clbits ← op.clbits.mapM (placeOf c.numClbits)
  c.append ⟨op.name, qubits, op.params, clbits⟩

theorem append_congr (c : Circuit) {i j : Instruction}
    (same : i.resolve c.numQubits c.numClbits = j.resolve c.numQubits c.numClbits) :
    c.append i = c.append j := by
  unfold append
  split <;> split <;> simp_all

theorem append_of_refused (c : Circuit) {i : Instruction} {fault : Fault}
    (refused : i.resolve c.numQubits c.numClbits = .error fault) : c.append i = .error fault := by
  unfold append
  split <;> simp_all

theorem mapM_placeOf (size : Nat) (indices : List Int) :
    (indices.map Number.integer).mapM (placeOf size) = resolveIndices size indices := by
  induction indices with
  | nil => rfl
  | cons index rest ih =>
      simp only [List.map_cons, List.mapM_cons, ih, placeOf, resolveIndices]
      cases resolveIndex size index <;> cases resolveIndices size rest <;> rfl

theorem apply_operation (c : Circuit) (i : Instruction) : c.apply i.operation = c.append i := by
  simp only [apply, Instruction.operation, mapM_placeOf]
  cases placed : resolveIndices c.numQubits i.qubits with
  | error fault => exact (c.append_of_refused (by simp [Instruction.resolve, placed])).symm
  | ok qubits =>
      cases clplaced : resolveIndices c.numClbits i.clbits with
      | error fault =>
          exact (c.append_of_refused (by simp [Instruction.resolve, placed, clplaced])).symm
      | ok clbits =>
          apply c.append_congr
          simp [Instruction.resolve, placed, clplaced,
            resolveIndices_of_bounds (resolveIndices_bounds placed),
            resolveIndices_of_bounds (resolveIndices_bounds clplaced)]

def applyAll (c : Circuit) (ops : List Operation) : Except Fault Circuit := ops.foldlM apply c

theorem applyAll_operations (c : Circuit) (data : List Instruction) :
    c.applyAll (data.map Instruction.operation) = c.appendAll data := by
  induction data generalizing c with
  | nil => rfl
  | cons i rest ih =>
      simp only [applyAll, List.map_cons, List.foldlM_cons, apply_operation, appendAll]
      cases c.append i with
      | error fault => rfl
      | ok next => exact ih next

def withData (c : Circuit) (data : List Instruction)
    (fits : ∀ i ∈ data, i.FitsIn c.numQubits c.numClbits) : Circuit :=
  { c with data := data, fits := fits }

/-- The same name, phase and registers, and so the same bits. The instructions may differ. -/
def SameFrame (c other : Circuit) : Prop :=
  c.name = other.name ∧ c.phase = other.phase ∧ c.qregs = other.qregs ∧ c.cregs = other.cregs

theorem withData_sameFrame (c : Circuit) (data : List Instruction)
    (fits : ∀ i ∈ data, i.FitsIn c.numQubits c.numClbits) : (c.withData data fits).SameFrame c :=
  ⟨rfl, rfl, rfl, rfl⟩

theorem append_of_fitsIn (c : Circuit) {i : Instruction}
    (fits : i.FitsIn c.numQubits c.numClbits) :
    c.append i = .ok (c.withData (c.data ++ [i]) fun j member =>
      (List.mem_append.mp member).elim (c.fits j) fun last =>
        List.mem_singleton.mp last ▸ fits) := by
  unfold append
  split
  · next fault refused =>
      rw [Instruction.resolve_of_fitsIn fits] at refused
      cases refused
  · next r resolved =>
      rw [Instruction.resolve_of_fitsIn fits] at resolved
      cases resolved
      rfl

theorem appendAll_of_fitsIn (c : Circuit) {data : List Instruction}
    (fits : ∀ i ∈ data, i.FitsIn c.numQubits c.numClbits) :
    c.appendAll data = .ok (c.withData (c.data ++ data) fun j member =>
      (List.mem_append.mp member).elim (c.fits j) (fits j)) := by
  induction data generalizing c with
  | nil => simp [appendAll, withData]
  | cons i rest ih =>
      have first := fits i List.mem_cons_self
      rw [appendAll, append_of_fitsIn c first]
      simp only []
      rw [ih]
      · simp [withData]
      · exact fun j member => fits j (List.mem_cons_of_mem _ member)

def emptyLike (c : Circuit) : Circuit := c.withData [] (by simp)

def rebuild (c : Circuit) (data : List Instruction) : Except Fault Circuit :=
  c.emptyLike.appendAll data

theorem rebuild_of_fitsIn (c : Circuit) {data : List Instruction}
    (fits : ∀ i ∈ data, i.FitsIn c.numQubits c.numClbits) :
    c.rebuild data = .ok (c.withData data fits) :=
  appendAll_of_fitsIn c.emptyLike fits

def slice (c : Circuit) (start stop : Nat) : Circuit :=
  c.withData ((c.data.take stop).drop start) fun i member =>
    c.fits i (List.mem_of_mem_take (List.mem_of_mem_drop member))

def filter (c : Circuit) (keep : Instruction → Bool) : Circuit :=
  c.withData (c.data.filter keep) fun i member => c.fits i (List.mem_filter.mp member).1

/-- The circuit of the instructions at these places; a negative one counts from the end. -/
def select (c : Circuit) (places : List Int) : Except Fault Circuit := do
  let chosen ← places.mapM fun place =>
    match itemAt? c.data place with
    | some i => .ok i
    | none => .error (if isWordSized place then .noSuchInstruction else .wordOverflow)
  c.rebuild chosen

/-- The qubits that some instruction other than a barrier acts on, in order of first use. -/
def touched (c : Circuit) : List Int :=
  ((c.data.filter (!·.isBarrier)).flatMap (·.qubits)).eraseDups

end Circuit
end QuasiCut
