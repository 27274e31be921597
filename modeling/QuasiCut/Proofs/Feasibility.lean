import Mathlib
import QuasiCut.Proofs.AcceptedCuts
import QuasiCut.Proofs.FragmentWidths

/-! When wire cuts can meet a budget. The qubits of an instruction lie in distinct segments of one
cluster wherever the wires are cut, so an instruction that is too wide defeats every plan. If there
is none, cutting every wire everywhere leaves each instruction by itself. -/

namespace QuasiCut

namespace Circuit

variable {c : Circuit} {cuts : List WireCut} {budget : Number}

section Lower

theorem qubits_card {i : Instruction} (present : i ∈ c.data) :
    Nat.card {q : Int // q ∈ i.qubits} = i.qubits.length := by
  have distinct : i.qubits.Nodup := (c.fits i present).1.1
  rw [← List.toFinset_card_of_nodup distinct]
  apply Nat.subtype_card
  intro q
  exact List.mem_toFinset

theorem length_le_width {position : Nat} {i : Instruction} (present : c.data[position]? = some i)
    {u : c.Use} (here : u.position = position) :
    i.qubits.length ≤ (u.cluster cuts).width := by
  have acting := (Use.acts_of present here).1
  let use (q : {q : Int // q ∈ i.qubits}) : c.Use := ⟨position, q.1, i, present, acting, q.2⟩
  rw [← qubits_card (List.mem_of_getElem? present)]
  apply Nat.card_le_card_of_injective
    (fun q => (⟨(use q).segment cuts, cluster_eq_of_position here.symm⟩ :
      {s : c.Segment cuts // s.cluster = u.cluster cuts}))
  intro q r same
  have shared := segment_eq_iff.mp (congrArg Subtype.val same)
  exact Subtype.ext shared.1

theorem atLeast_of_cutsFit (positive : budget.atLeast 1 = true)
    (fit : c.cutsFit cuts budget = true) {i : Instruction} (present : i ∈ c.data)
    (acting : i.isBarrier = false) : budget.atLeast i.qubits.length = true := by
  rcases List.getElem?_of_mem present with ⟨position, found⟩
  cases qubits : i.qubits with
  | nil => exact Number.atLeast_of_le (by decide) positive
  | cons q rest =>
      let u : c.Use := ⟨position, q, i, found, acting, by simp [qubits]⟩
      have wide : i.qubits.length ≤ (u.cluster cuts).width := length_le_width found rfl
      rw [← qubits]
      exact Number.atLeast_of_le (Int.ofNat_le.mpr wide) (cutsFit_iff.mp fit (u.cluster cuts))

end Lower

section Upper

def everywhere (c : Circuit) : List WireCut :=
  (List.range (c.data.length + 1)).flatMap fun position : Nat =>
    c.touched.map fun qubit => ⟨position, qubit⟩

theorem mem_everywhere {position : Nat} {qubit : Int} :
    (⟨position, qubit⟩ : WireCut) ∈ c.everywhere ↔
      position ≤ c.data.length ∧ qubit ∈ c.touched := by
  simp [everywhere]

theorem everywhere_accepted : c.checkCuts c.everywhere = .ok () := by
  rw [checkCuts_eq_ok_iff]
  intro cut member
  rcases List.mem_flatMap.mp member with ⟨position, inside, listed⟩
  rcases List.mem_map.mp listed with ⟨qubit, touched, rfl⟩
  have bound := List.mem_range.mp inside
  constructor
  · exact Int.natCast_nonneg position
  · show (position : Int) ≤ c.data.length
    omega
  · exact touched

theorem Use.touched (u : c.Use) : u.qubit ∈ c.touched := by
  rcases u.acts with ⟨i, found, acting, acted⟩
  exact mem_touched.mpr ⟨i, List.mem_of_getElem? found, acting, acted⟩

theorem segment_everywhere {u v : c.Use}
    (same : u.segment c.everywhere = v.segment c.everywhere) : u = v := by
  rcases segment_eq_iff.mp same with ⟨qubit, whole⟩
  have position : u.position = v.position := by
    by_contra apart
    apply whole
    -- The wire is cut just before the later of the two.
    have bound : max u.position v.position ≤ c.data.length :=
      max_le u.position_lt.le v.position_lt.le
    refine ⟨⟨(max u.position v.position : Nat), u.qubit⟩, mem_everywhere.mpr ⟨bound, u.touched⟩,
      rfl, ?_, le_rfl⟩
    rw [Int.ofNat_lt]
    omega
  exact Use.ext position qubit

def Segment.use : c.Segment c.everywhere → c.Use :=
  Quotient.lift id fun _ _ same => segment_everywhere (segment_eq_iff.mpr same)

theorem Segment.use_injective :
    Function.Injective (Segment.use : c.Segment c.everywhere → c.Use) := by
  intro s t same
  rcases exists_use s with ⟨u, rfl⟩
  rcases exists_use t with ⟨v, rfl⟩
  exact congrArg (Use.segment c.everywhere) same

theorem width_everywhere {position : Nat} {i : Instruction} (present : c.data[position]? = some i)
    {u : c.Use} (here : u.position = position) :
    (u.cluster c.everywhere).width ≤ i.qubits.length := by
  -- Nothing joins segments of different instructions, so a cluster stays at one position.
  have alone : ∀ s : c.Segment c.everywhere, s.cluster = u.cluster c.everywhere →
      s.use.position = position := by
    intro s same
    rw [← here]
    exact eq_of_cluster_eq (fun s => s.use.position) (fun _ _ together => together) same
  rw [← qubits_card (List.mem_of_getElem? present)]
  apply Nat.card_le_card_of_injective
    (fun s : {s : c.Segment c.everywhere // s.cluster = u.cluster c.everywhere} =>
      (⟨s.1.use.qubit, (Use.acts_of present (alone s.1 s.2)).2⟩ : {q : Int // q ∈ i.qubits}))
  intro s t same
  apply Subtype.ext
  apply Segment.use_injective
  apply Use.ext
  · rw [alone s.1 s.2, alone t.1 t.2]
  · exact congrArg Subtype.val same

theorem everywhere_fits
    (narrow : ∀ i ∈ c.data, i.isBarrier = false → budget.atLeast i.qubits.length = true) :
    c.cutsFit c.everywhere budget = true := by
  rw [cutsFit_iff]
  intro f
  rcases f.exists_use with ⟨u, rfl⟩
  rcases u.acts with ⟨i, present, acting, -⟩
  have bound := width_everywhere present (u := u) rfl
  exact Number.atLeast_of_le (Int.ofNat_le.mpr bound)
    (narrow i (List.mem_of_getElem? present) acting)

end Upper

section Plan

def crosses (i : Instruction) : Bool := !i.isBarrier && decide (2 ≤ i.qubits.length)

def crossings (c : Circuit) : List (Instruction × Nat) :=
  c.data.zipIdx.filter fun entry => crosses entry.1

/-- The cut comes just after the instruction, on the second of its qubits. -/
def SeversAfter (cut : WireCut) (crossing : Instruction × Nat) : Prop :=
  cut.position = crossing.2 + 1 ∧ crossing.1.qubits[1]? = some cut.qubit

theorem proposalsFrom_seversAfter (position : Nat) (data : List Instruction) :
    List.Forall₂ SeversAfter (proposalsFrom position data)
      ((data.zipIdx position).filter fun entry => crosses entry.1) := by
  induction data generalizing position with
  | nil => exact List.Forall₂.nil
  | cons i rest ih =>
      have later := ih (position + 1)
      rw [proposalsFrom, List.zipIdx_cons, List.filter_cons]
      cases acting : i.isBarrier with
      | true => simpa [crosses, acting] using later
      | false =>
          cases qubits : i.qubits with
          | nil => simpa [crosses, qubits] using later
          | cons first others =>
              cases others with
              | nil => simpa [crosses, qubits] using later
              | cons second others =>
                  have severs : SeversAfter ⟨position + 1, second⟩ (i, position) := by
                    simp [SeversAfter, qubits]
                  simpa [crosses, acting, qubits] using ⟨severs, later⟩

def attempts (c : Circuit) (placed : List WireCut) : List WireCut → List Event
  | [] => []
  | cut :: rest =>
      .proposed cut (c.fragmentWidths (placed ++ [cut])) :: c.attempts (placed ++ [cut]) rest

theorem placeCuts_unfit (unfit : ∀ cuts, c.cutsFit cuts budget = false)
    (placed rest : List WireCut) :
    c.placeCuts budget placed rest =
      ⟨c.attempts placed rest ++ [.overBudget (placed ++ rest).length budget],
        .ok (placed ++ rest)⟩ := by
  induction rest generalizing placed with
  | nil =>
      rw [List.append_nil]
      rfl
  | cons cut rest ih =>
      have exceeded : withinBudget (c.fragmentWidths (placed ++ [cut])) budget = false :=
        unfit (placed ++ [cut])
      have later := ih (placed ++ [cut])
      rw [List.append_assoc, List.singleton_append] at later
      simp only [placeCuts, exceeded, Bool.false_eq_true, if_false, later]
      rfl

theorem findCuts_unfit (positive : budget.atLeast 1 = true) {i : Instruction}
    (present : i ∈ c.data) (acting : i.isBarrier = false)
    (wide : budget.atLeast i.qubits.length = false) :
    c.findCuts budget =
      ⟨c.attempts [] c.proposals ++ [.overBudget c.proposals.length budget], .ok c.proposals⟩ := by
  have unfit : ∀ cuts, c.cutsFit cuts budget = false := by
    intro cuts
    rw [Bool.eq_false_iff]
    intro fit
    rw [atLeast_of_cutsFit positive fit present acting] at wide
    cases wide
  have inside : i.qubits.length ≤ c.touched.length := by
    apply (List.subperm_of_subset (c.fits i present).1.1 _).length_le
    intro q acted
    exact mem_touched.mpr ⟨i, present, acting, acted⟩
  have many : budget.atLeast c.touched.length = false := by
    rw [Bool.eq_false_iff]
    intro enough
    rw [Number.atLeast_of_le (Int.ofNat_le.mpr inside) enough] at wide
    cases wide
  rw [findCuts, Number.below_of_atLeast positive, many, unfit []]
  exact placeCuts_unfit unfit [] c.proposals

/-- Some accepted cuts meet a budget exactly when no instruction is wider than it. Otherwise the
planner cuts after every instruction on several qubits, and warns that this does not do. -/
theorem wireCuts_feasible_iff (c : Circuit) (budget : Number) (positive : budget.atLeast 1 = true) :
    ((∃ cuts, c.checkCuts cuts = .ok () ∧ c.cutsFit cuts budget = true) ↔
      ∀ i ∈ c.data, i.isBarrier = false → budget.atLeast i.qubits.length = true) ∧
    ∀ i ∈ c.data, i.isBarrier = false → budget.atLeast i.qubits.length = false →
      ∃ cuts, List.Forall₂ SeversAfter cuts c.crossings ∧
        c.findCuts budget =
          ⟨c.attempts [] cuts ++ [.overBudget cuts.length budget], .ok cuts⟩ := by
  constructor
  · constructor
    · intro feasible i present acting
      rcases feasible with ⟨cuts, -, fit⟩
      exact atLeast_of_cutsFit positive fit present acting
    · intro narrow
      exact ⟨c.everywhere, everywhere_accepted, everywhere_fits narrow⟩
  · intro i present acting wide
    exact ⟨c.proposals, proposalsFrom_seversAfter 0 c.data,
      findCuts_unfit positive present acting wide⟩

def threefold : Circuit :=
  (empty [⟨"q", 4⟩] []).withData
    [⟨"cx", [0, 1], [], []⟩, ⟨"barrier", [0, 1, 2, 3], [], []⟩, ⟨"ccx", [0, 1, 2], [], []⟩,
      ⟨"cx", [2, 3], [], []⟩] (by decide)

theorem threefold_feasible :
    (threefold.cutsFit [] (.integer 3) = false ∧
      ∃ cuts, threefold.checkCuts cuts = .ok () ∧ threefold.cutsFit cuts (.integer 3) = true) ∧
    (¬∃ cuts, threefold.checkCuts cuts = .ok () ∧ threefold.cutsFit cuts (.integer 2) = true) ∧
      ∃ cuts, List.Forall₂ SeversAfter cuts threefold.crossings ∧ cuts.length = 3 ∧
        threefold.findCuts (.integer 2) =
          ⟨threefold.attempts [] cuts ++ [.overBudget 3 (.integer 2)], .ok cuts⟩ := by
  have wide := wireCuts_feasible_iff threefold (.integer 3) (by decide)
  have narrow := wireCuts_feasible_iff threefold (.integer 2) (by decide)
  rcases narrow.2 ⟨"ccx", [0, 1, 2], [], []⟩ (by decide) (by decide) (by decide) with
    ⟨cuts, severs, report⟩
  have three : cuts.length = 3 := severs.length_eq
  rw [three] at report
  refine ⟨⟨by decide, wide.1.mpr (by decide)⟩, ?_, cuts, severs, three, report⟩
  intro feasible
  exact absurd (narrow.1.mp feasible) (by decide)

end Plan

end Circuit
end QuasiCut
