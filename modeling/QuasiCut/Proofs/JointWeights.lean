import Mathlib
import QuasiCut.Proofs.BasisHistory

/-! The distributive law of configurations. Summing a product of functions of the choices over all
configurations, with their weights, gives the product of the sums over the terms of each basis. -/

namespace QuasiCut

namespace Basis

def weightedSum (b : Basis ℚ) (f : Nat → ℚ) : ℚ :=
  ∑ term ∈ Finset.range b.numTerms, b.coeffs.getD term 0 * f term

end Basis

namespace Configuration

theorem sum_first_choice (b : Basis ℚ) {bases : List (Basis ℚ)}
    (f : Fin (b :: bases).length → Nat → ℚ) (chosen : List Nat) (weight : ℚ) :
    ((List.range b.numTerms).map fun choice =>
      b.coeffs.getD choice 0 * weight * ∏ i, f i ((choice :: chosen).getD i 0)).sum =
      b.weightedSum (f 0) * (weight * ∏ i : Fin bases.length, f i.succ (chosen.getD i 0)) := by
  rw [Basis.weightedSum, Finset.sum_mul]
  apply congrArg List.sum
  apply List.map_congr_left
  intro choice _
  have split : ∏ i, f i ((choice :: chosen).getD i 0) =
      f 0 choice * ∏ i : Fin bases.length, f i.succ (chosen.getD i 0) := Fin.prod_univ_succ _
  rw [split]
  ring

theorem sum_listing_mul (bases : List (Basis ℚ)) (f : Fin bases.length → Nat → ℚ) :
    ((listing bases).map fun entry => entry.2 * ∏ i, f i (entry.1.getD i 0)).sum =
      ∏ i, (bases.get i).weightedSum (f i) := by
  induction bases with
  | nil => simp [listing]
  | cons b bases ih =>
      calc
        ((listing (b :: bases)).map fun entry => entry.2 * ∏ i, f i (entry.1.getD i 0)).sum =
            ((listing bases).map fun entry => b.weightedSum (f 0) *
              (entry.2 * ∏ i : Fin bases.length, f i.succ (entry.1.getD i 0))).sum := by
          rw [sum_listing_cons]
          apply congrArg List.sum
          apply List.map_congr_left
          intro entry _
          exact sum_first_choice b f entry.1 entry.2
        _ = b.weightedSum (f 0) * ∏ i : Fin bases.length, (bases.get i).weightedSum (f i.succ) := by
          rw [List.sum_map_mul_left, ih fun i => f i.succ]
        _ = ∏ i, ((b :: bases).get i).weightedSum (f i) :=
          (Fin.prod_univ_succ fun i => ((b :: bases).get i).weightedSum (f i)).symm

/-- Accepted bases are enumerated, each entry chooses a term of every basis, and the weighted sum of
the products of functions of the choices is the product of the weighted sums over the terms. -/
theorem enumerate_factorises {ν : Type} (read : ν → Except Fault ℚ) (bases : List (Basis ℚ))
    (made : ∀ b ∈ bases, ∃ terms coeffs, Basis.make read terms coeffs = .ok b) :
    ∃ entries, (enumerate bases).outcome = .ok entries ∧
      (∀ entry ∈ entries, Admissible bases entry.1) ∧
      ∀ f : Fin bases.length → Nat → ℚ,
        (entries.map fun entry => entry.2 * ∏ i, f i (entry.1.getD i 0)).sum =
          ∏ i, (bases.get i).weightedSum (f i) := by
  have balanced : ∀ b ∈ bases, b.Balanced := by
    intro b member
    rcases made b member with ⟨terms, coeffs, accepted⟩
    exact Basis.balanced_of_make accepted
  have listed := enumerate_outcome balanced
  exact ⟨listing bases, listed, enumerate_admissible listed, sum_listing_mul bases⟩

def paired : Basis ℚ := ⟨[[["x"]], [["z"]]], [1 / 2, -1 / 3]⟩

def tripled : Basis ℚ := ⟨[[[], ["h"]], [["s"], []], [["y"], ["y"]]], [2, 0, -5]⟩

theorem uneven_factorise :
    Basis.make Except.ok paired.terms paired.coeffs = .ok paired ∧
    Basis.make Except.ok tripled.terms tripled.coeffs = .ok tripled ∧
    ∃ entries, (enumerate [paired, tripled]).outcome = .ok entries ∧ entries.length = 6 ∧
      ∀ f : Fin 2 → Nat → ℚ,
        (entries.map fun entry => entry.2 * ∏ i, f i (entry.1.getD i 0)).sum =
          (1 / 2 * f 0 0 - 1 / 3 * f 0 1) * (2 * f 1 0 - 5 * f 1 2) := by
  have first : Basis.make Except.ok paired.terms paired.coeffs = .ok paired := rfl
  have second : Basis.make Except.ok tripled.terms tripled.coeffs = .ok tripled := rfl
  have made : ∀ b ∈ [paired, tripled], ∃ terms coeffs, Basis.make Except.ok terms coeffs = .ok b := by
    intro b member
    rcases List.mem_pair.mp member with rfl | rfl
    · exact ⟨_, _, first⟩
    · exact ⟨_, _, second⟩
  rcases enumerate_factorises Except.ok [paired, tripled] made with
    ⟨entries, listed, -, factorises⟩
  refine ⟨first, second, entries, listed, ?_, ?_⟩
  · have counted : (enumerate [paired, tripled]).outcome.map List.length = .ok 6 := rfl
    rw [listed] at counted
    exact Except.ok.inj counted
  · intro f
    have two : paired.weightedSum (f 0) = 1 / 2 * f 0 0 - 1 / 3 * f 0 1 := by
      simp [Basis.weightedSum, Basis.numTerms, paired, Finset.sum_range_succ]
      ring
    have three : tripled.weightedSum (f 1) = 2 * f 1 0 - 5 * f 1 2 := by
      simp [Basis.weightedSum, Basis.numTerms, tripled, Finset.sum_range_succ]
      ring
    rw [← two, ← three]
    exact (factorises f).trans (Fin.prod_univ_two _)

end Configuration
end QuasiCut
