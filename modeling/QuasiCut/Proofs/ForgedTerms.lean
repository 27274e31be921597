import Mathlib
import QuasiCut.Proofs.PreparedBits
import QuasiCut.Proofs.SplitPairs

/-! The terms of a Schmidt sum. Each of them is made from its own entries alone: either half prepares
its bitstring and applies its ansatz, and the weight is the square of the coefficient. The shortest
list says how many terms there are, and what other lists hold beyond it is never looked at. -/

namespace QuasiCut

theorem Instruction.FitsIn.widen {i : Instruction} {qubits more clbits : Nat}
    (fits : i.FitsIn qubits clbits) (wider : qubits ≤ more) : i.FitsIn more clbits := by
  refine ⟨⟨fits.1.1, ?_⟩, fits.2⟩
  intro qubit member
  have inside := fits.1.2 qubit member
  omega

theorem getElem?_of_mapM_ok {α β : Type} {work : α → Except Fault β} {items : List α}
    {results : List β} (returned : items.mapM work = .ok results) (place : Nat) :
    results[place]? = items[place]?.bind fun item => (work item).toOption := by
  have each := forall₂_of_mapM_ok returned
  clear returned
  induction each generalizing place with
  | nil => rfl
  | cons done _ ih =>
      cases place with
      | zero => simp [done, Except.toOption]
      | succ place => exact ih place

namespace Subsystem

variable {s : Subsystem Int} {bits : Int} {ansatz : Circuit}

structure Accepted (s : Subsystem Int) : Prop where
  distinct : s.qubits.Nodup
  counted : ∀ qubit ∈ s.qubits, 0 ≤ qubit
  unsigned : ∀ bits ∈ s.bitstrings, 0 ≤ bits

theorem checkQubits_eq_ok_iff {half : Half} :
    s.numbers.checkQubits half = .ok () ↔ s.qubits.Nodup ∧ ∀ qubit ∈ s.qubits, 0 ≤ qubit := by
  have below : s.numbers.qubits.any (·.below 0) = true ↔ ¬∀ qubit ∈ s.qubits, 0 ≤ qubit := by
    simp [numbers]
  by_cases counted : ∀ qubit ∈ s.qubits, 0 ≤ qubit
  · rw [and_iff_left counted, checkQubits, if_neg (fun negative => below.mp negative counted)]
    simp [numbers, Number.distinct_integers]
  · rw [checkQubits, if_pos (below.mpr counted)]
    simp [counted]

theorem checkBitstrings_eq_ok_iff {half : Half} :
    s.numbers.checkBitstrings half = .ok () ↔ ∀ bits ∈ s.bitstrings, 0 ≤ bits := by
  simp [checkBitstrings, numbers]

/-- The listed qubits whose bit is set are flipped, in the order of the list, and then the ansatz is
applied as it stands, with its phase on top of none. The circuit is as wide as both need. -/
structure Forges (s : Subsystem Int) (bits : Int) (ansatz circuit : Circuit) : Prop where
  width : (circuit.numQubits : Int) = max (span s.qubits) ansatz.numQubits
  data : circuit.data = (flipped bits.toNat s.qubits).map (Instruction.single "x") ++ ansatz.data
  cregs : circuit.cregs = ansatz.cregs
  phase : circuit.phase = Binary64.zero false + ansatz.phase

def Holds (s : Subsystem Int) (ansatz : Circuit) : Prop :=
  Register.Sized (max (span s.qubits) ansatz.numQubits)

theorem follow_returns {prepared : Circuit} (wide : ansatz.numQubits ≤ prepared.numQubits)
    (unread : ∀ i ∈ prepared.data, i.clbits = []) :
    ∃ c, follow prepared ansatz = .ok c ∧ c.numQubits = prepared.numQubits ∧
      c.data = prepared.data ++ ansatz.data ∧ c.cregs = ansatz.cregs ∧
        c.phase = prepared.phase + ansatz.phase := by
  have fits : ∀ i ∈ prepared.data ++ ansatz.data,
      i.FitsIn prepared.numQubits ansatz.numClbits := by
    intro i member
    rcases List.mem_append.mp member with first | second
    -- The prepared gates were made without classical bits, and the ansatz for fewer qubits.
    · refine ⟨(prepared.fits i first).1, ?_⟩
      rw [unread i first]
      simp [Placed]
    · exact (ansatz.fits i second).widen wide
  exact ⟨_, Circuit.appendAll_of_fitsIn _ fits, rfl, rfl, rfl, rfl⟩

theorem circuit_returns (accepted : s.Accepted) (unsigned : 0 ≤ bits) (held : s.Holds ansatz) :
    ∃ c, s.circuit bits ansatz = .ok c ∧ s.Forges bits ansatz c := by
  obtain ⟨value, rfl⟩ := Int.eq_ofNat_of_zero_le unsigned
  have inside : ∀ qubit ∈ s.qubits,
      0 ≤ qubit ∧ qubit < (some (max (span s.qubits) ansatz.numQubits)).getD (span s.qubits) := by
    intro qubit listed
    exact ⟨accepted.counted qubit listed, lt_max_of_lt_left (lt_span listed)⟩
  have sized : Register.Sized
      ((some (max (span s.qubits) ansatz.numQubits)).getD (span s.qubits)) := held
  rcases prepareBits_returns sized inside value none with
    ⟨prepared, made, total, plain, data⟩
  rw [Option.getD_some] at total
  have wide : ansatz.numQubits ≤ prepared.numQubits := by
    have most := le_max_right (span s.qubits) (ansatz.numQubits : Int)
    omega
  have unread : ∀ i ∈ prepared.data, i.clbits = [] := by
    intro i member
    rw [data] at member
    rcases List.mem_map.mp member with ⟨qubit, -, rfl⟩
    rfl
  rcases follow_returns wide unread with
    ⟨c, followed, width, joined, cregs, phase⟩
  refine ⟨c, ?_, ?_, ?_, cregs, ?_⟩
  · simp only [circuit, made]
    exact followed
  · rw [width]
    exact total
  · rw [joined, data, setQubitsFrom_eq]
    rfl
  · rw [phase, plain]

theorem holds_of_circuit (unsigned : 0 ≤ bits) {c : Circuit}
    (returned : s.circuit bits ansatz = .ok c) : s.Holds ansatz := by
  obtain ⟨value, rfl⟩ := Int.eq_ofNat_of_zero_le unsigned
  cases made : prepareBits s.qubits value (some (max (span s.qubits) ansatz.numQubits)) none with
  | error fault =>
      simp only [circuit, made] at returned
      cases returned
  | ok prepared => exact sized_of_prepareBits made

theorem forges_of_circuit (accepted : s.Accepted) (unsigned : 0 ≤ bits) {c : Circuit}
    (returned : s.circuit bits ansatz = .ok c) : s.Forges bits ansatz c := by
  rcases circuit_returns accepted unsigned (holds_of_circuit unsigned returned) with
    ⟨made, returned', forges⟩
  rw [returned] at returned'
  cases returned'
  exact forges

theorem circuit_congr {other : Subsystem Int} (same : s.qubits = other.qubits) :
    s.circuit = other.circuit := by
  funext bits ansatz
  simp only [circuit, same]

end Subsystem

namespace Forging

variable {square : Binary64 → Except Fault Binary64} {f g : Forging Int}
  {ansatz : Half → Nat → Circuit} {workers : Option Number}

theorem check_eq_ok_iff : f.check = .ok () ↔ f.a.Accepted ∧ f.b.Accepted := by
  have both (first second : Except Fault Unit) :
      (first >>= fun _ => second) = .ok () ↔ first = .ok () ∧ second = .ok () := by
    cases first with
    | error fault => simp [bind, Except.bind]
    | ok _ => simp [bind, Except.bind]
  rw [check, checkNumbers, both, both, both]
  simp only [numbers, Subsystem.checkQubits_eq_ok_iff, Subsystem.checkBitstrings_eq_ok_iff]
  constructor
  · intro checked
    exact ⟨⟨checked.1.1, checked.1.2, checked.2.2.1⟩,
      ⟨checked.2.1.1, checked.2.1.2, checked.2.2.2⟩⟩
  · intro accepted
    exact ⟨⟨accepted.1.distinct, accepted.1.counted⟩, ⟨accepted.2.distinct, accepted.2.counted⟩,
      accepted.1.unsigned, accepted.2.unsigned⟩

section Entries

theorem schmidtTerms_length (f : Forging Int) : f.schmidtTerms.length = f.numTerms := by
  rw [schmidtTerms, List.length_zip, List.length_zip, numTerms]

theorem schmidtTerms_getElem? {k : Nat} {coefficient : Number} {bitsA bitsB : Int} :
    f.schmidtTerms[k]? = some (coefficient, bitsA, bitsB) ↔ f.coefficients[k]? = some coefficient ∧
      f.a.bitstrings[k]? = some bitsA ∧ f.b.bitstrings[k]? = some bitsB := by
  rw [schmidtTerms, List.getElem?_zip_eq_some, List.getElem?_zip_eq_some]

structure AgreeAt (f g : Forging Int) (k : Nat) : Prop where
  coefficients : f.coefficients[k]? = g.coefficients[k]?
  bitsA : f.a.bitstrings[k]? = g.a.bitstrings[k]?
  bitsB : f.b.bitstrings[k]? = g.b.bitstrings[k]?

theorem AgreeAt.schmidtTerms {k : Nat} (agree : f.AgreeAt g k) :
    f.schmidtTerms[k]? = g.schmidtTerms[k]? := by
  apply Option.ext
  intro entry
  rw [schmidtTerms_getElem?, schmidtTerms_getElem?, agree.coefficients, agree.bitsA, agree.bitsB]

def extended (f : Forging Int) (coefficients : List Number) (bitsA bitsB : List Int) :
    Forging Int where
  a := ⟨f.a.qubits, f.a.bitstrings ++ bitsA⟩
  b := ⟨f.b.qubits, f.b.bitstrings ++ bitsB⟩
  coefficients := f.coefficients ++ coefficients

theorem schmidtTerms_extended {coefficients : List Number} {bitsA bitsB : List Int}
    (same : (f.extended coefficients bitsA bitsB).numTerms = f.numTerms) :
    (f.extended coefficients bitsA bitsB).schmidtTerms = f.schmidtTerms := by
  apply List.ext_getElem?
  intro k
  -- Below the shortest length every list has its old entry, and from there on there is no term.
  by_cases inside : k < f.numTerms
  · have shortest := inside
    rw [numTerms, lt_min_iff, lt_min_iff] at shortest
    apply AgreeAt.schmidtTerms
    exact ⟨List.getElem?_append_left shortest.1, List.getElem?_append_left shortest.2.1,
      List.getElem?_append_left shortest.2.2⟩
  · have beyond := Nat.not_lt.mp inside
    rw [List.getElem?_eq_none (by rw [schmidtTerms_length, same]; exact beyond),
      List.getElem?_eq_none (by rw [schmidtTerms_length]; exact beyond)]

end Entries

section Terms

theorem termWith_eq_ok_iff {k : Nat} {coefficient : Number} {bitsA bitsB : Int}
    {term : ForgedTerm} :
    f.termWith Subsystem.circuit square ansatz ((coefficient, bitsA, bitsB), k) = .ok term ↔
      f.a.circuit bitsA (ansatz .a k) = .ok term.a ∧ f.b.circuit bitsB (ansatz .b k) = .ok term.b ∧
        ∃ value, coefficient.toBinary64 = .ok value ∧ square value = .ok term.weight := by
  cases term with
  | mk a b weight =>
      rw [termWith]
      cases f.a.circuit bitsA (ansatz .a k) with
      | error fault => simp [bind, Except.bind]
      | ok circuitA =>
          cases f.b.circuit bitsB (ansatz .b k) with
          | error fault => simp [bind, Except.bind]
          | ok circuitB =>
              cases coefficient.toBinary64 with
              | error fault => simp [bind, Except.bind]
              | ok value =>
                  cases squared : square value with
                  | error fault => simp [bind, Except.bind, squared]
                  | ok result => simp [bind, Except.bind, squared, pure, Except.pure]

theorem termWith_congr {other : Half → Nat → Circuit} {k : Nat}
    (qubitsA : f.a.qubits = g.a.qubits) (qubitsB : f.b.qubits = g.b.qubits)
    (same : ∀ half, ansatz half k = other half k) (entry : Number × Int × Int) :
    f.termWith Subsystem.circuit square ansatz (entry, k) =
      g.termWith Subsystem.circuit square other (entry, k) := by
  rcases entry with ⟨coefficient, bitsA, bitsB⟩
  rw [termWith, termWith, Subsystem.circuit_congr qubitsA, Subsystem.circuit_congr qubitsB,
    same .a, same .b]

theorem terms_outcome (square : Binary64 → Except Fault Binary64) (f : Forging Int)
    (ansatz : Half → Nat → Circuit)
    (staffed : ∀ number ∈ workers, number.atLeast 1 = true) :
    (f.terms square ansatz workers).outcome =
      f.schmidtTerms.zipIdx.mapM (f.termWith Subsystem.circuit square ansatz) := by
  rw [terms, termsWith]
  refine (Report.outcome_ite_emit _ _).trans ?_
  rw [Batch.run, Circuit.checkWorkers_ok staffed]
  rfl

theorem terms_getElem? (staffed : ∀ number ∈ workers, number.atLeast 1 = true)
    {ts : List ForgedTerm} (returned : (f.terms square ansatz workers).outcome = .ok ts) (k : Nat) :
    ts[k]? = f.schmidtTerms[k]?.bind fun entry =>
      (f.termWith Subsystem.circuit square ansatz (entry, k)).toOption := by
  rw [terms_outcome square f ansatz staffed] at returned
  rw [getElem?_of_mapM_ok returned, List.getElem?_zipIdx, Nat.zero_add]
  cases f.schmidtTerms[k]? <;> rfl

theorem exists_entry (staffed : ∀ number ∈ workers, number.atLeast 1 = true)
    {ts : List ForgedTerm} (returned : (f.terms square ansatz workers).outcome = .ok ts) {k : Nat}
    {term : ForgedTerm} (present : ts[k]? = some term) :
    ∃ coefficient bitsA bitsB, f.schmidtTerms[k]? = some (coefficient, bitsA, bitsB) ∧
      f.termWith Subsystem.circuit square ansatz ((coefficient, bitsA, bitsB), k) = .ok term := by
  rw [terms_getElem? staffed returned, Option.bind_eq_some_iff] at present
  rcases present with ⟨⟨coefficient, bitsA, bitsB⟩, entry, made⟩
  refine ⟨coefficient, bitsA, bitsB, entry, ?_⟩
  cases outcome : f.termWith Subsystem.circuit square ansatz ((coefficient, bitsA, bitsB), k) with
  | error fault =>
      rw [outcome] at made
      cases made
  | ok value =>
      rw [outcome] at made
      cases made
      rfl

theorem terms_length (staffed : ∀ number ∈ workers, number.atLeast 1 = true)
    {ts : List ForgedTerm} (returned : (f.terms square ansatz workers).outcome = .ok ts) :
    ts.length = f.numTerms := by
  rw [terms_outcome square f ansatz staffed] at returned
  rw [← (forall₂_of_mapM_ok returned).length_eq, List.length_zipIdx, schmidtTerms_length]

end Terms

def Squarable (square : Binary64 → Except Fault Binary64) (coefficient : Number) : Prop :=
  ∃ value weight, coefficient.toBinary64 = .ok value ∧ square value = .ok weight

def Held (f : Forging Int) (ansatz : Half → Nat → Circuit) : Prop :=
  ∀ k < f.numTerms, f.a.Holds (ansatz .a k) ∧ f.b.Holds (ansatz .b k)

/-- Either half prepares bitstring `k` and applies ansatz `k`, and the weight is the square of
coefficient `k`. -/
structure IsTerm (square : Binary64 → Except Fault Binary64) (f : Forging Int)
    (ansatz : Half → Nat → Circuit) (k : Nat) (term : ForgedTerm) : Prop where
  a : ∃ bits, f.a.bitstrings[k]? = some bits ∧ f.a.Forges bits (ansatz .a k) term.a
  b : ∃ bits, f.b.bitstrings[k]? = some bits ∧ f.b.Forges bits (ansatz .b k) term.b
  weight : ∃ coefficient value, f.coefficients[k]? = some coefficient ∧
    coefficient.toBinary64 = .ok value ∧ square value = .ok term.weight

structure SameTerm (f g : Forging Int) (ansatz other : Half → Nat → Circuit) (k : Nat) : Prop where
  qubitsA : f.a.qubits = g.a.qubits
  qubitsB : f.b.qubits = g.b.qubits
  entries : f.AgreeAt g k
  ansatz : ∀ half, ansatz half k = other half k

section Accepted

variable (accepted : f.a.Accepted ∧ f.b.Accepted)
  (staffed : ∀ number ∈ workers, number.atLeast 1 = true)

include accepted staffed

theorem terms_isTerm {ts : List ForgedTerm}
    (returned : (f.terms square ansatz workers).outcome = .ok ts) {k : Nat} {term : ForgedTerm}
    (present : ts[k]? = some term) : f.IsTerm square ansatz k term := by
  rcases exists_entry staffed returned present with ⟨coefficient, bitsA, bitsB, entry, made⟩
  rcases schmidtTerms_getElem?.mp entry with ⟨atCoefficient, atA, atB⟩
  rcases termWith_eq_ok_iff.mp made with ⟨halfA, halfB, value, converted, squared⟩
  have unsignedA := accepted.1.unsigned bitsA (List.mem_of_getElem? atA)
  have unsignedB := accepted.2.unsigned bitsB (List.mem_of_getElem? atB)
  exact ⟨⟨bitsA, atA, Subsystem.forges_of_circuit accepted.1 unsignedA halfA⟩,
    ⟨bitsB, atB, Subsystem.forges_of_circuit accepted.2 unsignedB halfB⟩,
    ⟨coefficient, value, atCoefficient, converted, squared⟩⟩

theorem held_of_terms {ts : List ForgedTerm}
    (returned : (f.terms square ansatz workers).outcome = .ok ts) : f.Held ansatz := by
  intro k inside
  rw [← terms_length staffed returned] at inside
  rcases exists_entry staffed returned (List.getElem?_eq_getElem inside) with
    ⟨coefficient, bitsA, bitsB, entry, made⟩
  rcases schmidtTerms_getElem?.mp entry with ⟨-, atA, atB⟩
  rcases termWith_eq_ok_iff.mp made with ⟨halfA, halfB, -⟩
  exact ⟨Subsystem.holds_of_circuit (accepted.1.unsigned bitsA (List.mem_of_getElem? atA)) halfA,
    Subsystem.holds_of_circuit (accepted.2.unsigned bitsB (List.mem_of_getElem? atB)) halfB⟩

theorem terms_returns (held : f.Held ansatz)
    (squared : ∀ coefficient ∈ f.coefficients.take f.numTerms, Squarable square coefficient) :
    ∃ ts, (f.terms square ansatz workers).outcome = .ok ts := by
  rw [terms_outcome square f ansatz staffed]
  apply mapM_returns
  intro item member
  rcases item with ⟨⟨coefficient, bitsA, bitsB⟩, k⟩
  have entry := List.mem_zipIdx_iff_getElem?.mp member
  have inside : k < f.numTerms := by
    rw [← schmidtTerms_length]
    exact (List.getElem?_eq_some_iff.mp entry).1
  rcases schmidtTerms_getElem?.mp entry with ⟨atCoefficient, atA, atB⟩
  have used : coefficient ∈ f.coefficients.take f.numTerms := by
    apply List.mem_of_getElem?
    rw [List.getElem?_take_of_lt inside]
    exact atCoefficient
  rcases Subsystem.circuit_returns accepted.1
    (accepted.1.unsigned bitsA (List.mem_of_getElem? atA)) (held k inside).1 with ⟨a, halfA, -⟩
  rcases Subsystem.circuit_returns accepted.2
    (accepted.2.unsigned bitsB (List.mem_of_getElem? atB)) (held k inside).2 with ⟨b, halfB, -⟩
  rcases squared coefficient used with ⟨value, weight, converted, square⟩
  exact ⟨⟨a, b, weight⟩, termWith_eq_ok_iff.mpr ⟨halfA, halfB, value, converted, square⟩⟩

end Accepted

section Locality

variable (staffed : ∀ number ∈ workers, number.atLeast 1 = true)

include staffed

theorem SameTerm.terms {other : Half → Nat → Circuit} {k : Nat} (same : f.SameTerm g ansatz other k)
    {others : Option Number} (staffed' : ∀ number ∈ others, number.atLeast 1 = true)
    {ts ts' : List ForgedTerm} (returned : (f.terms square ansatz workers).outcome = .ok ts)
    (returned' : (g.terms square other others).outcome = .ok ts') : ts[k]? = ts'[k]? := by
  rw [terms_getElem? staffed returned, terms_getElem? staffed' returned', same.entries.schmidtTerms]
  apply Option.bind_congr
  intro entry _
  rw [termWith_congr same.qubitsA same.qubitsB same.ansatz]

theorem terms_extended {coefficients : List Number} {bitsA bitsB : List Int}
    (same : (f.extended coefficients bitsA bitsB).numTerms = f.numTerms) :
    ((f.extended coefficients bitsA bitsB).terms square ansatz workers).outcome =
      (f.terms square ansatz workers).outcome := by
  have work : (f.extended coefficients bitsA bitsB).termWith Subsystem.circuit square ansatz =
      f.termWith Subsystem.circuit square ansatz := by
    funext item
    exact termWith_congr rfl rfl (fun _ => rfl) item.1
  rw [terms_outcome _ _ ansatz staffed, terms_outcome _ _ ansatz staffed, schmidtTerms_extended same,
    work]

end Locality

/-- An accepted sum whose coefficients in use can be squared is forged exactly if registers can hold its
halves. Then there are as many terms as the shortest list allows, and each is what its entries say.
A term of two sums is the same when its own entries are, and further entries that do not make the
shortest list longer change nothing. -/
theorem terms_forged (square : Binary64 → Except Fault Binary64) (f : Forging Int)
    (accepted : f.check = .ok ()) (ansatz : Half → Nat → Circuit)
    (squared : ∀ coefficient ∈ f.coefficients.take f.numTerms, Squarable square coefficient)
    (workers : Option Number) (staffed : ∀ number ∈ workers, number.atLeast 1 = true) :
    ((∃ ts, (f.terms square ansatz workers).outcome = .ok ts) ↔ f.Held ansatz) ∧
    (∀ ts, (f.terms square ansatz workers).outcome = .ok ts →
      ts.length = f.numTerms ∧ (∀ k term, ts[k]? = some term → f.IsTerm square ansatz k term) ∧
      ∀ (g : Forging Int) (other : Half → Nat → Circuit) (others : Option Number)
        (ts' : List ForgedTerm), (∀ number ∈ others, number.atLeast 1 = true) →
          (g.terms square other others).outcome = .ok ts' →
            ∀ k, f.SameTerm g ansatz other k → ts[k]? = ts'[k]?) ∧
    ∀ (coefficients : List Number) (bitsA bitsB : List Int),
      (f.extended coefficients bitsA bitsB).numTerms = f.numTerms →
        ((f.extended coefficients bitsA bitsB).terms square ansatz workers).outcome =
          (f.terms square ansatz workers).outcome := by
  rw [check_eq_ok_iff] at accepted
  refine ⟨⟨?_, ?_⟩, ?_, ?_⟩
  · intro returned
    rcases returned with ⟨ts, returned⟩
    exact held_of_terms accepted staffed returned
  · intro held
    exact terms_returns accepted staffed held squared
  · intro ts returned
    refine ⟨terms_length staffed returned, ?_, ?_⟩
    · intro k term present
      exact terms_isTerm accepted staffed returned present
    · intro g other others ts' staffed' returned' k same
      exact same.terms staffed staffed' returned returned'
  · intro coefficients bitsA bitsB same
    exact terms_extended staffed same

def uneven : Forging Int where
  a := ⟨[3, 0], [0b01, 0b110, 7]⟩
  b := ⟨[1], [1, 0]⟩
  coefficients := [.integer (-2), .integer 3, .integer 5]

def unevenAnsatz : Half → Nat → Circuit
  | .a, _ => { Circuit.empty [⟨"q", 1⟩] [] with phase := Binary64.ofInt 2 }
  | .b, _ => Circuit.entangled

theorem uneven_forged :
    uneven.check = .ok () ∧ uneven.numTerms = 2 ∧ flipped 0b110 [3, 0] = [0] ∧
    ∃ ts, (uneven.terms Binary64.square unevenAnsatz (some (.integer 2))).outcome = .ok ts ∧
      ts.length = 2 ∧
      ∀ k term, ts[k]? = some term → uneven.IsTerm Binary64.square unevenAnsatz k term := by
  have accepted : uneven.check = .ok () := rfl
  have squared : ∀ coefficient ∈ uneven.coefficients.take uneven.numTerms,
      Squarable Binary64.square coefficient := by
    intro coefficient member
    have listed : coefficient ∈ [Number.integer (-2), .integer 3] := member
    simp only [List.mem_cons, List.not_mem_nil, or_false] at listed
    rcases listed with rfl | rfl
    · exact ⟨_, _, rfl, rfl⟩
    · exact ⟨_, _, rfl, rfl⟩
  have held : uneven.Held unevenAnsatz := by
    intro k _
    change Register.Sized (max 4 1) ∧ Register.Sized (max 2 3)
    unfold Register.Sized
    decide
  have forged :=
    terms_forged Binary64.square uneven accepted unevenAnsatz squared (some (.integer 2)) (by decide)
  rcases forged.1.mpr held with ⟨ts, returned⟩
  rcases forged.2.1 ts returned with ⟨length, each, -⟩
  exact ⟨accepted, rfl, by decide, ts, returned, length, each⟩

def distant : Forging Int where
  a := ⟨[9223372036854775808], [0]⟩
  b := ⟨[], [0]⟩
  coefficients := [.integer 1]

theorem distant_not_forged :
    distant.check = .ok () ∧ distant.numTerms = 1 ∧
    (∀ coefficient ∈ distant.coefficients, Squarable Binary64.square coefficient) ∧
    ¬∃ ts, (distant.terms Binary64.square (fun _ _ => Circuit.empty [⟨"q", 1⟩] []) none).outcome =
      .ok ts := by
  have refused : (distant.terms Binary64.square (fun _ _ => Circuit.empty [⟨"q", 1⟩] [])
      none).outcome = .error .wordOverflow := rfl
  refine ⟨rfl, rfl, ?_, ?_⟩
  · intro coefficient member
    rw [List.mem_singleton.mp member]
    exact ⟨_, _, rfl, rfl⟩
  · rw [refused]
    simp

end Forging
end QuasiCut
