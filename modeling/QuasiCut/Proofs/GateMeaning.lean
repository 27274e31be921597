import Mathlib
import QuasiCut.Proofs.GateExpansion
import QuasiCut.Proofs.Overhead

/-! Cutting gates preserves meaning. Instructions stand for elements of an algebra over the rational
numbers, and a circuit for their ordered product. The weighted sum of all experiments is then the
product in which each cut gate stands for the weighted sum of its terms. -/

namespace QuasiCut

universe u

variable {A : Type u} [Ring A] (interp : Instruction → A)

def meaning (data : List Instruction) : A := (data.map interp).prod

/-- The ordered product in which some positions have a value of their own. -/
def productFrom (value : Nat → Option A) : Nat → List Instruction → A
  | _, [] => 1
  | position, i :: rest =>
      (value position).getD (interp i) * productFrom value (position + 1) rest

theorem meaning_append (first second : List Instruction) :
    meaning interp (first ++ second) = meaning interp first * meaning interp second := by
  simp [meaning]

theorem meaning_replaceFrom (replacements : List (Nat × List Instruction)) (position : Nat)
    (data : List Instruction) :
    meaning interp (Circuit.replaceFrom replacements position data) =
      productFrom interp (fun p => (replacements.lookup p).map (meaning interp)) position data := by
  induction data generalizing position with
  | nil => rfl
  | cons i rest ih =>
      rw [Circuit.replaceFrom, productFrom, meaning_append, ih]
      cases replacements.lookup position with
      | none => simp [meaning]
      | some operations => rfl

section Product

variable {value other : Nat → Option A}

theorem productFrom_congr {position : Nat} {data : List Instruction}
    (agree : ∀ (offset : Nat) (i : Instruction), data[offset]? = some i →
      (value (position + offset)).getD (interp i) = (other (position + offset)).getD (interp i)) :
    productFrom interp value position data = productFrom interp other position data := by
  induction data generalizing position with
  | nil => rfl
  | cons i rest ih =>
      have here := agree 0 i rfl
      have later : productFrom interp value (position + 1) rest =
          productFrom interp other (position + 1) rest := by
        apply ih
        intro offset j found
        have next := agree (offset + 1) j (by simpa using found)
        rwa [← Nat.add_assoc, Nat.add_right_comm] at next
      rw [productFrom, productFrom, later]
      rw [Nat.add_zero] at here
      rw [here]

theorem productFrom_none (position : Nat) (data : List Instruction) :
    productFrom interp (fun _ => none) position data = meaning interp data := by
  induction data generalizing position with
  | nil => rfl
  | cons i rest ih => simp [productFrom, meaning, ih]

theorem productFrom_update (value : Nat → Option A) {position place : Nat}
    {data : List Instruction} (low : position ≤ place) (high : place < position + data.length) :
    ∃ left right, ∀ x, productFrom interp (Function.update value place (some x)) position data =
      left * x * right := by
  induction data generalizing position with
  | nil => simp only [List.length_nil] at high; omega
  | cons i rest ih =>
      by_cases here : position = place
      · subst here
        refine ⟨1, productFrom interp value (position + 1) rest, fun x => ?_⟩
        have after : productFrom interp (Function.update value position (some x)) (position + 1)
            rest = productFrom interp value (position + 1) rest := by
          apply productFrom_congr
          intro offset j found
          rw [Function.update_of_ne (by omega)]
        rw [productFrom, after, Function.update_self, Option.getD_some, one_mul]
      · rw [List.length_cons] at high
        have beyond : position + 1 ≤ place := by omega
        obtain ⟨left, right, factored⟩ := ih beyond (by omega)
        refine ⟨(value position).getD (interp i) * left, right, fun x => ?_⟩
        rw [productFrom, factored, Function.update_of_ne here]
        simp only [mul_assoc]

theorem productFrom_update_self {place : Nat} {data : List Instruction} {i : Instruction}
    (present : data[place]? = some i) (free : value place = none) :
    productFrom interp (Function.update value place (some (interp i))) 0 data =
      productFrom interp value 0 data := by
  apply productFrom_congr
  intro position j found
  rw [Nat.zero_add]
  by_cases here : position = place
  · subst here
    rw [present] at found
    cases found
    rw [Function.update_self, free]
    rfl
  · rw [Function.update_of_ne here]

end Product

def chosenValue (replacements : List (Nat × List Instruction)) (value : Nat → Option A)
    (position : Nat) : Option A :=
  ((replacements.lookup position).map (meaning interp)).or (value position)

section Chosen

variable {replacements : List (Nat × List Instruction)} {value : Nat → Option A} {position : Nat}

theorem chosenValue_nil : chosenValue interp [] value = value := by
  funext p
  simp [chosenValue]

theorem chosenValue_cons (operations : List Instruction) :
    chosenValue interp ((position, operations) :: replacements) value =
      Function.update (chosenValue interp replacements value) position
        (some (meaning interp operations)) := by
  funext p
  by_cases here : p = position
  · subst here
    simp [chosenValue]
  · have elsewhere : (p == position) = false := beq_eq_false_iff_ne.mpr here
    simp [chosenValue, List.lookup_cons, here, elsewhere]

theorem lookup_eq_none_of_fresh {β : Type} {entries : List (Nat × β)} {key : Nat}
    (fresh : key ∉ entries.map Prod.fst) : entries.lookup key = none := by
  rw [List.lookup_eq_none_iff]
  intro entry member
  rw [bne_iff_ne]
  rintro rfl
  exact fresh (List.mem_map.mpr ⟨entry, member, rfl⟩)

theorem chosenValue_update (fresh : position ∉ replacements.map Prod.fst) (x : A) :
    chosenValue interp replacements (Function.update value position (some x)) =
      Function.update (chosenValue interp replacements value) position (some x) := by
  funext p
  by_cases here : p = position
  · subst here
    simp [chosenValue, lookup_eq_none_of_fresh fresh]
  · simp [chosenValue, here]

end Chosen

variable [Algebra ℚ A]

def termSum (terms : List (GateTerm ℚ)) : A :=
  (terms.map fun term => term.weight • meaning interp term.operations).sum

def experimentSum (experiments : List (Experiment ℚ)) : A :=
  (experiments.map fun e => e.weight • meaning interp e.circuit.data).sum

theorem sum_productFrom_update {ι : Type} (value : Nat → Option A) {place : Nat}
    {data : List Instruction} (inside : place < data.length) (choices : List ι) (coeff : ι → ℚ)
    (x : ι → A) :
    (choices.map fun j => coeff j •
      productFrom interp (Function.update value place (some (x j))) 0 data).sum =
        productFrom interp (Function.update value place
          (some (choices.map fun j => coeff j • x j).sum)) 0 data := by
  obtain ⟨left, right, factored⟩ := productFrom_update interp value
    (Nat.zero_le place) (by omega : place < 0 + data.length)
  rw [factored]
  simp only [factored]
  induction choices with
  | nil => simp
  | cons j rest ih =>
      simp only [List.map_cons, List.sum_cons, ih, mul_add, add_mul]
      congr 1
      rw [mul_smul_comm, smul_mul_assoc]

def chosenOperations (i : Instruction) (choice : Nat) : List Instruction :=
  (((i.localTerms : List (GateTerm ℚ))[choice]?).map GateTerm.operations).getD []

theorem localTerms_eq (i : Instruction) :
    (i.localTerms : List (GateTerm ℚ)) =
      (List.range (i.basis : Basis ℚ).numTerms).map fun choice =>
        ⟨chosenOperations i choice, (i.basis : Basis ℚ).coeffs.getD choice 0⟩ := by
  have balanced : (i.basis : Basis ℚ).Balanced := i.basis_balanced
  rw [Basis.Balanced] at balanced
  apply List.ext_getElem
  · simp [Instruction.localTerms, Basis.placed, Basis.numTerms, balanced]
  · intro choice inside other
    have below : choice < (i.basis : Basis ℚ).coeffs.length := by
      simp [Basis.numTerms] at other
      omega
    simp only [List.getElem_map, List.getElem_range, chosenOperations,
      List.getElem?_eq_getElem inside, Option.map_some, Option.getD_some, List.getD_eq_getElem _ _ below]
    simp [Instruction.localTerms, Basis.placed]

/-- What a position stands for once its gate is cut: the sum of the gate's terms. -/
def cutValue (cut : List (Nat × Instruction)) (value : Nat → Option A) (position : Nat) :
    Option A :=
  ((cut.lookup position).map fun i => termSum interp i.localTerms).or (value position)

theorem cutValue_nil (value : Nat → Option A) : cutValue interp [] value = value := by
  funext p
  simp [cutValue]

theorem cutValue_cons {cut : List (Nat × Instruction)} {position : Nat}
    (fresh : position ∉ cut.map Prod.fst) (i : Instruction) (value : Nat → Option A) :
    cutValue interp ((position, i) :: cut) value =
      cutValue interp cut (Function.update value position (some (termSum interp i.localTerms))) := by
  funext p
  by_cases here : p = position
  · subst here
    simp [cutValue, lookup_eq_none_of_fresh fresh]
  · have elsewhere : (p == position) = false := beq_eq_false_iff_ne.mpr here
    simp [cutValue, List.lookup_cons, here, elsewhere]

theorem chosenTerms_positions {located : List (Nat × List (GateTerm ℚ))} {chosen : List Nat}
    {position : Nat} (fresh : position ∉ located.map Prod.fst) :
    position ∉ (Circuit.chosenTerms located chosen).map Prod.fst := by
  intro member
  apply fresh
  obtain ⟨entry, replaced, rfl⟩ := List.mem_map.mp member
  obtain ⟨pair, paired, rfl⟩ := List.mem_map.mp replaced
  exact List.mem_map.mpr ⟨pair.1, (List.of_mem_zip paired).1, rfl⟩

theorem sum_choices (data : List Instruction) (i : Instruction) (value : Nat → Option A)
    {replacements : List (Nat × List Instruction)} {place : Nat} (weight : ℚ)
    (inside : place < data.length) (fresh : place ∉ replacements.map Prod.fst) :
    ((List.range (i.basis : Basis ℚ).numTerms).map fun choice =>
      ((i.basis : Basis ℚ).coeffs.getD choice 0 * weight) • productFrom interp (chosenValue interp
        ((place, chosenOperations i choice) :: replacements) value) 0 data).sum =
      weight • productFrom interp (chosenValue interp replacements
        (Function.update value place (some (termSum interp i.localTerms)))) 0 data := by
  have terms : termSum interp i.localTerms = ((List.range (i.basis : Basis ℚ).numTerms).map
      fun choice => (i.basis : Basis ℚ).coeffs.getD choice 0 •
        meaning interp (chosenOperations i choice)).sum := by
    conv_lhs => rw [termSum, localTerms_eq, List.map_map]
    rfl
  rw [chosenValue_update interp fresh, terms, ← sum_productFrom_update interp _ inside,
    List.smul_sum, List.map_map]
  congr 1
  refine List.map_congr_left fun choice _ => ?_
  rw [chosenValue_cons, Function.comp_apply, smul_smul, mul_comm]

/-- The choices for several gates are summed one gate at a time, whatever stands at the other
positions. -/
theorem sum_listing (data : List Instruction) {cut : List (Nat × Instruction)}
    (distinct : (cut.map Prod.fst).Nodup) (inside : ∀ entry ∈ cut, entry.1 < data.length)
    (value : Nat → Option A) :
    ((Configuration.listing (cut.map fun (_, i) => i.basis)).map fun entry =>
      entry.2 • productFrom interp (chosenValue interp (Circuit.chosenTerms
        (cut.map fun (position, i) => (position, (i.localTerms : List (GateTerm ℚ)))) entry.1)
          value) 0 data).sum =
      productFrom interp (cutValue interp cut value) 0 data := by
  induction cut generalizing value with
  | nil =>
      simp [Configuration.listing, Circuit.chosenTerms, chosenValue_nil, cutValue_nil]
  | cons gate cut ih =>
      obtain ⟨place, i⟩ := gate
      rw [List.map_cons, List.nodup_cons] at distinct
      have here : place < data.length := inside (place, i) List.mem_cons_self
      have later : ∀ entry ∈ cut, entry.1 < data.length := fun entry member =>
        inside entry (List.mem_cons_of_mem _ member)
      simp only [List.map_cons]
      rw [Configuration.sum_listing_cons, cutValue_cons interp distinct.1, ← ih distinct.2 later]
      congr 1
      refine List.map_congr_left fun entry _ => ?_
      have fresh : place ∉ (Circuit.chosenTerms (cut.map fun (position, i) =>
          (position, (i.localTerms : List (GateTerm ℚ)))) entry.1).map Prod.fst := by
        apply chosenTerms_positions
        rw [List.map_map]
        exact distinct.1
      exact sum_choices interp data i value entry.2 here fresh

namespace Circuit

variable {c : Circuit} {gates : List Int}

/-- The experiments sum to the product in which each gate that is cut stands for the sum of its
terms. -/
theorem experimentSum_experiments (accepted : c.checkGates (gates.map .integer) = .ok ()) :
    experimentSum interp (c.experiments gates) =
      productFrom interp (cutValue interp (c.cuttable gates) fun _ => none) 0 c.data := by
  have inside : ∀ entry ∈ c.cuttable gates, entry.1 < c.data.length := by
    intro entry member
    exact (List.getElem?_eq_some_iff.mp (mem_cuttable.mp member).2.1).1
  rw [← sum_listing interp c.data (cuttable_positions_nodup accepted) inside, experimentSum,
    experiments, List.map_map]
  congr 1
  refine List.map_congr_left fun entry _ => ?_
  have expanded : meaning interp (c.expansion gates entry.1).data = productFrom interp
      (chosenValue interp (chosenTerms (c.located gates) entry.1) fun _ => none) 0 c.data := by
    rw [expansion, withData, meaning_replaceFrom]
    congr 1
    funext p
    rw [chosenValue, Option.or_none]
  exact congrArg (entry.2 • ·) expanded

theorem cutGates_isOk_iff (accepted : c.checkGates (gates.map .integer) = .ok ()) :
    (∃ cutting, (c.cutGates gates : Report (GateCutting ℚ)).outcome = .ok cutting) ↔
      (c.cuttable gates).length ≤ 646 := by
  rw [cutGates_outcome accepted, ← samplingOverhead_gates]
  cases samplingOverhead 0 (c.cuttable gates).length with
  | error fault => simp [Except.map, Except.isOk, Except.toBool]
  | ok overhead => simp [Except.map, Except.isOk, Except.toBool]

theorem experiments_of_returned (accepted : c.checkGates (gates.map .integer) = .ok ())
    {cutting : GateCutting ℚ} (returned : (c.cutGates gates).outcome = .ok cutting) :
    cutting.experiments = c.experiments gates := by
  rw [cutGates_outcome accepted] at returned
  cases computed : samplingOverhead 0 (c.cuttable gates).length with
  | error fault =>
      rw [computed] at returned
      cases returned
  | ok overhead =>
      rw [computed] at returned
      cases returned
      rfl

/-- If every gate that is cut stands for the weighted sum of its terms, then the weighted sum of the
experiments is what the circuit stands for. An accepted request returns its experiments unless more
than 646 gates are cut: the overhead of so many is beyond the binary64 numbers. -/
theorem cutGates_preserves_meaning (interp : Instruction → A) (c : Circuit) (gates : List Int)
    (accepted : c.checkGates (gates.map .integer) = .ok ())
    (decomposed : ∀ gate ∈ gates, ∀ i, c.data[gate.toNat]? = some i → i.isCuttable = true →
      ∀ terms, (i.gateTerms : Report (List (GateTerm ℚ))).outcome = .ok terms →
        interp i = termSum interp terms) :
    ((∃ cutting, (c.cutGates gates : Report (GateCutting ℚ)).outcome = .ok cutting) ↔
      (c.cuttable gates).length ≤ 646) ∧
    ∀ cutting, (c.cutGates gates : Report (GateCutting ℚ)).outcome = .ok cutting →
      experimentSum interp cutting.experiments = meaning interp c.data := by
  refine ⟨cutGates_isOk_iff accepted, fun cutting returned => ?_⟩
  rw [experiments_of_returned accepted returned, experimentSum_experiments interp accepted,
    ← productFrom_none interp 0 c.data]
  apply productFrom_congr
  intro position i found
  rw [Nat.zero_add]
  cases listed : (c.cuttable gates).lookup position with
  | none => simp [cutValue, listed]
  | some gate =>
      obtain ⟨⟨id, named, rfl⟩, present, cut⟩ := mem_cuttable.mp (lookup_cuttable.mp listed)
      have same : gate = i := by
        rw [found] at present
        exact (Option.some.inj present).symm
      subst same
      have value := decomposed id named gate found cut _ (Instruction.gateTerms_outcome cut)
      simp [cutValue, listed, ← value]

def crossed : Circuit :=
  (empty [⟨"q", 2⟩] []).withData
    [⟨"cx", [0, 1], [], []⟩, Instruction.single "h" 0, ⟨"cz", [1, 0], [], []⟩] (by decide)

def crossedReading (i : Instruction) : Matrix (Fin 2) (Fin 2) ℚ :=
  if i.name = "x" then !![0, 1; 1, 0]
  else if i.name = "y" then !![0, -1; 1, 0]
  else if i.name = "z" then !![1, 0; 0, -1]
  else if i.name = "cx" then !![2, 0; 0, 2]
  else if i.name = "cz" then !![1 / 2, 0; 0, -1 / 2]
  else !![1, 1; 1, -1]

theorem crossed_meaning_preserved :
    (∃ cutting, (crossed.cutGates [2, 1, 0] : Report (GateCutting ℚ)).outcome = .ok cutting ∧
      experimentSum crossedReading cutting.experiments = meaning crossedReading crossed.data) ∧
    meaning crossedReading crossed.data = !![1, -1; 1, 1] := by
  have preserved := cutGates_preserves_meaning crossedReading crossed [2, 1, 0] (by decide) (by
    intro gate listed i found cuttable terms returned
    rw [Instruction.gateTerms_outcome cuttable] at returned
    cases returned
    simp only [List.mem_cons, List.not_mem_nil, or_false] at listed
    rcases listed with rfl | rfl | rfl
    · cases found
      decide +kernel
    · cases found
      cases cuttable
    · cases found
      decide +kernel)
  obtain ⟨cutting, returned⟩ := preserved.1.mpr (by decide)
  exact ⟨⟨cutting, returned, preserved.2 cutting returned⟩, by decide +kernel⟩

end Circuit
end QuasiCut
