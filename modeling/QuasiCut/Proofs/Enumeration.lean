import Mathlib
import QuasiCut.Configuration

/-! The enumeration of configurations as a product of lists: the choice for the first basis varies
fastest, and a weight is the product of the chosen coefficients. -/

namespace QuasiCut

theorem mapM_eq_pure {m : Type → Type} [Monad m] [LawfulMonad m] {α β : Type} {f : α → m β}
    {g : α → β} {xs : List α} (each : ∀ x ∈ xs, f x = pure (g x)) :
    xs.mapM f = pure (xs.map g) := by
  induction xs with
  | nil => simp
  | cons x rest ih =>
      rw [List.mapM_cons, each x List.mem_cons_self,
        ih fun y member => each y (List.mem_cons_of_mem x member)]
      simp

theorem exists_mapM_ok {α β : Type} {work : α → Except Fault β} {result : α → β → Prop}
    {items : List α} (each : ∀ x ∈ items, ∃ y, work x = .ok y ∧ result x y) :
    ∃ results, items.mapM work = .ok results ∧ List.Forall₂ result items results := by
  induction items with
  | nil => exact ⟨[], rfl, List.Forall₂.nil⟩
  | cons x rest ih =>
      rcases each x List.mem_cons_self with ⟨y, done, first⟩
      rcases ih fun z member => each z (List.mem_cons_of_mem x member) with ⟨ys, later, others⟩
      refine ⟨y :: ys, ?_, List.Forall₂.cons first others⟩
      rw [List.mapM_cons, done, later]
      rfl

theorem mapM_returns {α β : Type} {work : α → Except Fault β} {items : List α}
    (each : ∀ x ∈ items, ∃ y, work x = .ok y) : ∃ results, items.mapM work = .ok results := by
  have known : ∀ x ∈ items, ∃ y, work x = .ok y ∧ work x = .ok y := by
    intro x member
    rcases each x member with ⟨y, done⟩
    exact ⟨y, done, done⟩
  rcases exists_mapM_ok known with ⟨results, done, -⟩
  exact ⟨results, done⟩

theorem forall₂_of_mapM_ok {α β : Type} {work : α → Except Fault β} {items : List α}
    {results : List β} (returned : items.mapM work = .ok results) :
    List.Forall₂ (fun item result => work item = .ok result) items results := by
  induction items generalizing results with
  | nil =>
      cases returned
      exact List.Forall₂.nil
  | cons item rest ih =>
      rw [List.mapM_cons] at returned
      cases done : work item with
      | error fault =>
          rw [done] at returned
          cases returned
      | ok first =>
          cases others : rest.mapM work with
          | error fault =>
              rw [done, others] at returned
              cases returned
          | ok later =>
              rw [done, others] at returned
              cases returned
              exact List.Forall₂.cons done (ih others)

theorem mapM_ok_of_forall₂ {α β : Type} {work : α → Except Fault β} {items : List α}
    {results : List β}
    (each : List.Forall₂ (fun item result => work item = .ok result) items results) :
    items.mapM work = .ok results := by
  induction each with
  | nil => rfl
  | cons first _ ih =>
      rw [List.mapM_cons, first, ih]
      rfl

theorem exists_of_forall₂ {α β : Type} {related : α → β → Prop} {xs : List α} {ys : List β}
    (paired : List.Forall₂ related xs ys) {y : β} (member : y ∈ ys) : ∃ x ∈ xs, related x y := by
  induction paired with
  | nil => cases member
  | @cons x _ rest _ first _ ih =>
      rcases List.mem_cons.mp member with rfl | listed
      · exact ⟨x, List.mem_cons_self, first⟩
      · rcases ih listed with ⟨other, present, later⟩
        exact ⟨other, List.mem_cons_of_mem x present, later⟩

theorem mapM_returns_iff {α β : Type} {work : α → Except Fault β} {items : List α} :
    (∃ results, items.mapM work = .ok results) ↔ ∀ x ∈ items, ∃ y, work x = .ok y := by
  constructor
  · intro returned x member
    rcases returned with ⟨results, returned⟩
    rcases exists_of_forall₂ (forall₂_of_mapM_ok returned).flip member with ⟨y, -, done⟩
    exact ⟨y, done⟩
  · exact mapM_returns

theorem mem_of_mapM_ok {α β : Type} {work : α → Except Fault β} {items : List α} {results : List β}
    (returned : items.mapM work = .ok results) {result : β} (member : result ∈ results) :
    ∃ item ∈ items, work item = .ok result :=
  exists_of_forall₂ (forall₂_of_mapM_ok returned) member

namespace Lockstep

theorem check_pair (first second : Nat) :
    check [first, second] =
      if first = second then .ok ()
      else if first < second then .error (.longerArgument 2)
      else .error (.shorterArgument 2) := by
  simp only [check, roundCount, List.foldl_cons, List.foldl_nil, List.findIdx?_cons,
    List.findIdx?_nil]
  grind

end Lockstep

def Basis.Balanced {α : Type} (b : Basis α) : Prop := b.coeffs.length = b.terms.length

namespace Configuration

/-- One digit below the number of terms for each basis. -/
def Admissible {α : Type} : List (Basis α) → List Nat → Prop
  | [], [] => True
  | b :: bases, choice :: chosen => choice < b.numTerms ∧ Admissible bases chosen
  | _, _ => False

def exactWeight : List (Basis ℚ) → List Nat → ℚ
  | b :: bases, choice :: chosen => b.coeffs.getD choice 0 * exactWeight bases chosen
  | _, _ => 1

/-- All choices with their weights, the first choice varying fastest. -/
def listing : List (Basis ℚ) → List (List Nat × ℚ)
  | [] => [([], 1)]
  | b :: bases => (listing bases).flatMap fun (chosen, weight) =>
      (List.range b.numTerms).map fun choice => (choice :: chosen, b.coeffs.getD choice 0 * weight)

theorem sum_listing_cons {A : Type*} [AddMonoid A] (b : Basis ℚ) (bases : List (Basis ℚ))
    (value : List Nat × ℚ → A) :
    ((listing (b :: bases)).map value).sum =
      ((listing bases).map fun entry => ((List.range b.numTerms).map fun choice =>
        value (choice :: entry.1, b.coeffs.getD choice 0 * entry.2)).sum).sum := by
  rw [listing, List.map_flatMap, List.flatMap_def, List.sum_flatten, List.map_map]
  apply congrArg List.sum
  apply List.map_congr_left
  intro entry _
  rw [Function.comp_apply, List.map_map]
  rfl

theorem range_mul (radix count : Nat) :
    List.range (radix * count) =
      (List.range count).flatMap fun high => (List.range radix).map fun low => radix * high + low := by
  induction count with
  | zero => simp
  | succ count ih =>
      rw [Nat.mul_succ, List.range_add, ih, List.range_succ, List.flatMap_append]
      simp

section

variable {α : Type}

theorem digits_cons {b : Basis α} (bases : List (Basis α)) {low : Nat} (high : Nat)
    (below : low < b.numTerms) :
    digits (b :: bases) (b.numTerms * high + low) = low :: digits bases high := by
  have positive : 0 < b.numTerms := by omega
  rw [digits, Nat.mul_add_mod, Nat.mod_eq_of_lt below, Nat.mul_add_div positive,
    Nat.div_eq_of_lt below, Nat.add_zero]

theorem mod_four (n : Nat) : n % 4 = n &&& 3 := (Nat.and_two_pow_sub_one_eq_mod n 2).symm

theorem shiftRight_div_four (n start : Nat) : (n >>> (2 * start)) / 4 = n >>> (2 * (start + 1)) := by
  rw [Nat.mul_succ, Nat.shiftRight_add]
  exact (Nat.shiftRight_eq_div_pow _ 2).symm

/-- The numbers of configurations, read as digits, go through the choices of the first basis before
they go on with the others. -/
theorem map_digits_cons (b : Basis α) (bases : List (Basis α)) :
    (List.range (count (b :: bases))).map (digits (b :: bases)) =
      ((List.range (count bases)).map (digits bases)).flatMap fun chosen =>
        (List.range b.numTerms).map (· :: chosen) := by
  rw [count, range_mul, List.map_flatMap, List.flatMap_map]
  refine List.flatMap_congr fun high _ => ?_
  rw [List.map_map]
  refine List.map_congr_left fun low member => ?_
  exact digits_cons bases high (List.mem_range.mp member)

theorem digits_admissible {bases : List (Basis α)} {index : Nat} (inside : index < count bases) :
    Admissible bases (digits bases index) := by
  induction bases generalizing index with
  | nil => trivial
  | cons b bases ih =>
      rw [count] at inside
      have positive : 0 < b.numTerms := Nat.pos_of_ne_zero fun none => by simp [none] at inside
      exact ⟨Nat.mod_lt _ positive, ih (Nat.div_lt_of_lt_mul inside)⟩

theorem choices_natCast {bases : List (Basis α)} {index : Nat} (inside : index < count bases) :
    choices bases index = .ok (digits bases index) := by
  rw [choices, if_pos (by omega), Int.toNat_natCast]

theorem Admissible.length_eq {bases : List (Basis α)} {chosen : List Nat}
    (admissible : Admissible bases chosen) : chosen.length = bases.length := by
  induction bases generalizing chosen with
  | nil =>
      cases chosen with
      | nil => rfl
      | cons choice chosen => exact admissible.elim
  | cons b bases ih =>
      cases chosen with
      | nil => exact admissible.elim
      | cons choice chosen => simp [ih admissible.2]

theorem entry_choices [One α] [Mul α] {bases : List (Basis α)} {index : Nat}
    (inside : index < count bases) {result : List Nat × α} (made : entry bases index = .ok result) :
    result.1 = digits bases index := by
  simp only [entry, choices_natCast inside, bind, Except.bind] at made
  cases weighed : weight bases ((digits bases index).map Number.ofNat) with
  | error fault =>
      rw [weighed] at made
      cases made
  | ok product =>
      rw [weighed] at made
      cases made
      rfl

theorem enumerate_admissible [One α] [Mul α] {bases : List (Basis α)}
    {listed : List (List Nat × α)} (returned : (enumerate bases).outcome = .ok listed) :
    ∀ item ∈ listed, Admissible bases item.1 := by
  intro item member
  rcases mem_of_mapM_ok returned member with ⟨index, ranged, made⟩
  have inside := List.mem_range.mp ranged
  rw [entry_choices inside made]
  exact digits_admissible inside

theorem coeffAt_ofNat {b : Basis α} {choice : Nat} (default : α)
    (inside : choice < b.coeffs.length) :
    coeffAt b (Number.ofNat choice) = .ok (b.coeffs.getD choice default) := by
  simp only [coeffAt, Number.ofNat, Number.toIndex, itemAt?, bind, Except.bind,
    place?_natCast inside, List.getElem?_eq_getElem inside]
  rw [List.getD_eq_getElem _ _ inside]

theorem check_same_length (n : Nat) : Lockstep.check [n, n] = .ok () := by
  rw [Lockstep.check_pair, if_pos rfl]

theorem weightFrom_returns [Mul α] {bases : List (Basis α)} {chosen : List Nat} (product : α)
    (balanced : ∀ b ∈ bases, b.Balanced) (admissible : Admissible bases chosen) :
    ∃ result, weightFrom product (bases.zip (chosen.map Number.ofNat)) = .ok result := by
  induction bases generalizing chosen product with
  | nil => exact ⟨product, rfl⟩
  | cons b bases ih =>
      cases chosen with
      | nil => exact admissible.elim
      | cons choice chosen =>
          have inside : choice < b.coeffs.length := by
            rw [balanced b List.mem_cons_self]
            exact admissible.1
          have later := ih (product * b.coeffs.get ⟨choice, inside⟩)
            (fun b' member => balanced b' (List.mem_cons_of_mem b member)) admissible.2
          simpa [weightFrom, coeffAt_ofNat (b.coeffs.get ⟨choice, inside⟩) inside, bind,
            Except.bind, inside] using later

theorem weight_returns [One α] [Mul α] {bases : List (Basis α)} {chosen : List Nat}
    (balanced : ∀ b ∈ bases, b.Balanced) (admissible : Admissible bases chosen) :
    ∃ result, weight bases (chosen.map Number.ofNat) = .ok result := by
  rcases weightFrom_returns 1 balanced admissible with ⟨product, weighed⟩
  refine ⟨product, ?_⟩
  simp only [weight, weighed, List.length_map, admissible.length_eq, check_same_length, bind,
    Except.bind, pure, Except.pure]

/-- Whatever the coefficients are, enumerating balanced bases never fails, and it goes through the
configurations in the order of their numbers. -/
theorem enumerate_returns [One α] [Mul α] {bases : List (Basis α)}
    (balanced : ∀ b ∈ bases, b.Balanced) :
    ∃ entries, (enumerate bases).outcome = .ok entries ∧
      entries.map Prod.fst = (List.range (count bases)).map (digits bases) := by
  have each : ∀ index ∈ List.range (count bases),
      ∃ result, entry bases index = .ok result ∧ result.1 = digits bases index := by
    intro index member
    have inside := List.mem_range.mp member
    rcases weight_returns balanced (digits_admissible inside) with ⟨product, weighed⟩
    refine ⟨(digits bases index, product), ?_, rfl⟩
    simp only [entry, choices_natCast inside, bind, Except.bind, weighed, pure, Except.pure]
  rcases exists_mapM_ok each with ⟨entries, listed, numbered⟩
  refine ⟨entries, listed, ?_⟩
  rw [← List.forall₂_eq_eq_eq, List.forall₂_map_left_iff, List.forall₂_map_right_iff]
  exact numbered.flip

end

theorem weightFrom_eq {bases : List (Basis ℚ)} {chosen : List Nat} (product : ℚ)
    (balanced : ∀ b ∈ bases, b.Balanced) (admissible : Admissible bases chosen) :
    weightFrom product (bases.zip (chosen.map Number.ofNat)) =
      .ok (product * exactWeight bases chosen) := by
  induction bases generalizing chosen product with
  | nil => simp [weightFrom, exactWeight]
  | cons b bases ih =>
      cases chosen with
      | nil => exact admissible.elim
      | cons choice chosen =>
          have inside : choice < b.coeffs.length := by
            rw [balanced b List.mem_cons_self]
            exact admissible.1
          simp only [List.map_cons, List.zip_cons_cons, weightFrom, coeffAt_ofNat 0 inside, bind,
            Except.bind, exactWeight]
          rw [ih _ (fun b' member => balanced b' (List.mem_cons_of_mem b member)) admissible.2,
            mul_assoc]

theorem weight_eq {bases : List (Basis ℚ)} {chosen : List Nat}
    (balanced : ∀ b ∈ bases, b.Balanced) (admissible : Admissible bases chosen) :
    weight bases (chosen.map Number.ofNat) = .ok (exactWeight bases chosen) := by
  simp only [weight, weightFrom_eq 1 balanced admissible, List.length_map,
    admissible.length_eq, check_same_length, bind, Except.bind, one_mul, pure, Except.pure]

theorem listing_eq (bases : List (Basis ℚ)) :
    listing bases = ((List.range (count bases)).map (digits bases)).map fun chosen =>
      (chosen, exactWeight bases chosen) := by
  induction bases with
  | nil => rfl
  | cons b bases ih =>
      rw [map_digits_cons, List.map_flatMap, listing, ih, List.flatMap_map]
      refine List.flatMap_congr fun chosen _ => ?_
      rw [List.map_map]
      rfl

theorem enumerate_outcome {bases : List (Basis ℚ)} (balanced : ∀ b ∈ bases, b.Balanced) :
    (enumerate bases).outcome = .ok (listing bases) := by
  have each : ∀ index ∈ List.range (count bases), entry bases index =
      (pure (digits bases index, exactWeight bases (digits bases index)) :
        Except Fault (List Nat × ℚ)) := by
    intro index member
    have inside := List.mem_range.mp member
    simp only [entry, choices_natCast inside, bind, Except.bind,
      weight_eq balanced (digits_admissible inside)]
  rw [enumerate, entries, Report.outcome_emit_bind, Report.ofExcept, mapM_eq_pure each, listing_eq,
    List.map_map]
  rfl

end Configuration
end QuasiCut
