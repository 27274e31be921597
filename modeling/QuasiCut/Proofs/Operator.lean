import Mathlib
import QuasiCut.Circuit

/-! Operators on `n` qubits as complex matrices over bit strings, and the standard gates among them.
A small operator is placed on some of the wires and leaves the bits of the others as they are. -/

namespace QuasiCut

open Matrix

/-- The row is the string after, the column the string before. -/
abbrev Operator (n : Nat) := Matrix (Fin n → Bool) (Fin n → Bool) ℂ

namespace Operator

variable {k m n : Nat}

def Agree (wires : Fin k → Fin n) (r s : Fin n → Bool) : Prop :=
  ∀ q, (∀ j, wires j ≠ q) → r q = s q

instance (wires : Fin k → Fin n) (r s : Fin n → Bool) : Decidable (Agree wires r s) :=
  inferInstanceAs (Decidable (∀ _, _ → _))

/-- Acts on the bits of the wires, in their order, if all other bits agree. -/
def place (wires : Fin k → Fin n) (M : Operator k) : Operator n :=
  fun r s => if Agree wires r s then M (r ∘ wires) (s ∘ wires) else 0

section Place

variable {wires : Fin k → Fin n}

theorem agree_extend (wires : Fin k → Fin n) (bits : Fin k → Bool) (r : Fin n → Bool) :
    Agree wires r (Function.extend wires bits r) := by
  intro q outside
  rw [Function.extend_apply' _ _ _ (by simpa using outside)]

theorem agree_extend_left {bits : Fin k → Bool} {r s : Fin n → Bool} :
    Agree wires (Function.extend wires bits r) s ↔ Agree wires r s := by
  constructor
  · intro agree q outside
    rw [agree_extend wires bits r q outside]
    exact agree q outside
  · intro agree q outside
    rw [← agree_extend wires bits r q outside]
    exact agree q outside

theorem eq_of_agree {r s : Fin n → Bool} (agree : Agree wires r s)
    (same : r ∘ wires = s ∘ wires) : r = s := by
  funext q
  by_cases inside : ∃ j, wires j = q
  · obtain ⟨j, rfl⟩ := inside
    exact congrFun same j
  · exact agree q (by simpa using inside)

theorem place_one (wires : Fin k → Fin n) : place wires (1 : Operator k) = 1 := by
  ext r s
  by_cases same : r = s
  · subst same
    have agree : Agree wires r r := fun _ _ => rfl
    simp [place, agree]
  · have different : Agree wires r s → r ∘ wires ≠ s ∘ wires := fun agree bits =>
      same (eq_of_agree agree bits)
    rw [Matrix.one_apply_ne same, place]
    split
    · next agree => exact Matrix.one_apply_ne (different agree)
    · rfl

theorem place_add (M N : Operator k) : place wires (M + N) = place wires M + place wires N := by
  ext r s
  by_cases agree : Agree wires r s <;> simp [place, agree]

theorem place_smul (a : ℚ) (M : Operator k) : place wires (a • M) = a • place wires M := by
  ext r s
  by_cases agree : Agree wires r s <;> simp [place, agree]

theorem place_zero : place wires (0 : Operator k) = 0 := by
  ext r s
  simp [place]

theorem place_mul (injective : Function.Injective wires) (M N : Operator k) :
    place wires M * place wires N = place wires (M * N) := by
  ext r t
  -- A string that contributes agrees with the row off the wires, so its bits on them decide it.
  have fiber : ∑ bits, M (r ∘ wires) bits * place wires N (Function.extend wires bits r) t =
      (place wires M * place wires N) r t := by
    rw [Matrix.mul_apply]
    apply Fintype.sum_of_injective (fun bits => Function.extend wires bits r)
    · exact Function.extend_injective injective r
    · intro s outside
      have apart : ¬Agree wires r s := by
        intro agree
        have near : Agree wires (Function.extend wires (s ∘ wires) r) s :=
          agree_extend_left.mpr agree
        exact outside ⟨s ∘ wires, eq_of_agree near (Function.extend_comp injective _ r)⟩
      simp [place, apart]
    · intro bits
      simp only [place, if_pos (agree_extend wires bits r), Function.extend_comp injective]
  rw [← fiber]
  by_cases agree : Agree wires r t
  · simp only [place, agree_extend_left, if_pos agree, Function.extend_comp injective,
      Matrix.mul_apply]
  · simp only [place, agree_extend_left, if_neg agree, mul_zero, Finset.sum_const_zero]

theorem place_place (injective : Function.Injective wires) (inner : Fin m → Fin k)
    (M : Operator m) : place wires (place inner M) = place (wires ∘ inner) M := by
  ext r s
  have split : Agree (wires ∘ inner) r s ↔
      Agree wires r s ∧ Agree inner (r ∘ wires) (s ∘ wires) := by
    constructor
    · intro agree
      refine ⟨fun q outside => agree q fun j => outside (inner j), fun j outside => ?_⟩
      exact agree (wires j) fun l same => outside l (injective same)
    · rintro ⟨outer, agree⟩ q outside
      by_cases inside : ∃ j, wires j = q
      · obtain ⟨j, rfl⟩ := inside
        exact agree j fun l same => outside l (congrArg wires same)
      · exact outer q (by simpa using inside)
  by_cases outer : Agree wires r s
  · by_cases agree : Agree inner (r ∘ wires) (s ∘ wires)
    · simp only [place, if_pos outer, if_pos agree, if_pos (split.mpr ⟨outer, agree⟩)]
      rfl
    · have apart : ¬Agree (wires ∘ inner) r s := fun both => agree (split.mp both).2
      simp only [place, if_pos outer, if_neg agree, if_neg apart]
  · have apart : ¬Agree (wires ∘ inner) r s := fun both => outer (split.mp both).1
    simp only [place, if_neg outer, if_neg apart]

end Place

def x : Operator 1 := fun r s => if r 0 = s 0 then 0 else 1

def y : Operator 1 := fun r s =>
  if r 0 = s 0 then 0 else if s 0 then -Complex.I else Complex.I

def z : Operator 1 := fun r s => if r 0 = s 0 then if s 0 then -1 else 1 else 0

def cx : Operator 2 := fun r s => if r 0 = s 0 ∧ r 1 = (s 1 ^^ s 0) then 1 else 0

def cz : Operator 2 := fun r s =>
  if r 0 = s 0 ∧ r 1 = s 1 then if s 0 && s 1 then -1 else 1 else 0

def swap : Operator 2 := fun r s => if r 0 = s 1 ∧ r 1 = s 0 then 1 else 0

/-- Keeps equal bits only, and forgets which they were. -/
def pairing : Operator 2 := fun r s => if r 0 = r 1 ∧ s 0 = s 1 then 1 else 0

def onlySecond : Operator 2 := fun r s => if r 0 = false ∧ r 1 = true ∧ r = s then 1 else 0

theorem one_apply_one (r s : Fin 1 → Bool) :
    (1 : Operator 1) r s = if r 0 = s 0 then 1 else 0 := by
  simp [Matrix.one_apply, funext_iff]

theorem one_apply_two (r s : Fin 2 → Bool) :
    (1 : Operator 2) r s = if r 0 = s 0 ∧ r 1 = s 1 then 1 else 0 := by
  simp [Matrix.one_apply, funext_iff, Fin.forall_fin_two]

theorem sum_one (f : (Fin 1 → Bool) → ℂ) : ∑ s, f s = f ![false] + f ![true] := by
  rw [← (Equiv.funUnique (Fin 1) Bool).symm.sum_comp, Fintype.sum_bool, add_comm]
  congr 2
  all_goals
    funext q
    fin_cases q
    rfl

theorem sum_two (f : (Fin 2 → Bool) → ℂ) :
    ∑ s, f s = f ![false, false] + f ![false, true] + f ![true, false] + f ![true, true] := by
  rw [← (finTwoArrowEquiv Bool).symm.sum_comp, Fintype.sum_prod_type]
  simp only [Fintype.sum_bool, finTwoArrowEquiv_symm_apply]
  ring

theorem mul_self_of_single {M : Operator 1} (gate : M = x ∨ M = y ∨ M = z) : M * M = 1 := by
  ext r s
  rw [Matrix.mul_apply, sum_one, one_apply_one]
  rcases gate with rfl | rfl | rfl
  all_goals cases hr : r 0 <;> cases hs : s 0 <;> simp [x, y, z, hr, hs]

theorem mul_self_of_pair {M : Operator 2} (gate : M = cx ∨ M = cz ∨ M = swap) : M * M = 1 := by
  ext r s
  rw [Matrix.mul_apply, sum_two, one_apply_two]
  rcases gate with rfl | rfl | rfl
  all_goals
    simp only [cx, cz, swap, Matrix.cons_val_zero, Matrix.cons_val_one]
    cases r 0 <;> cases r 1 <;> cases s 0 <;> cases s 1 <;> simp

theorem place_first (M : Operator 1) (r s : Fin 2 → Bool) :
    place ![0] M r s = if r 1 = s 1 then M ![r 0] ![s 0] else 0 := by
  have rest : Agree ![(0 : Fin 2)] r s ↔ r 1 = s 1 := by
    simp [Agree, Fin.forall_fin_two]
  have bits : ∀ t : Fin 2 → Bool, t ∘ ![0] = ![t 0] := by
    intro t
    funext q
    fin_cases q
    rfl
  simp only [place, rest, bits]

theorem place_second (M : Operator 1) (r s : Fin 2 → Bool) :
    place ![1] M r s = if r 0 = s 0 then M ![r 1] ![s 1] else 0 := by
  have rest : Agree ![(1 : Fin 2)] r s ↔ r 0 = s 0 := by
    simp [Agree, Fin.forall_fin_two]
  have bits : ∀ t : Fin 2 → Bool, t ∘ ![1] = ![t 1] := by
    intro t
    funext q
    fin_cases q
    rfl
  simp only [place, rest, bits]

theorem place_both (M N : Operator 1) (r s : Fin 2 → Bool) :
    (place ![1] N * place ![0] M : Operator 2) r s = M ![r 0] ![s 0] * N ![r 1] ![s 1] := by
  rw [Matrix.mul_apply, sum_two]
  simp only [place_first, place_second]
  cases r 0 <;> cases s 1 <;> simp [mul_comm]

end Operator
end QuasiCut
