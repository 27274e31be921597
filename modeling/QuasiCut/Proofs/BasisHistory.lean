import Mathlib
import QuasiCut.Proofs.Enumeration
import QuasiCut.Proofs.FailedSteps

/-! Bases along a run of assignments. The terms of an accepted basis never change, and an assignment
keeps one coefficient for each of them or changes nothing. So whatever was assigned to some bases,
each choice of their terms has a weight. -/

namespace QuasiCut

section Run

variable {σ ι α : Type} {perform : ι → Action σ α}

def endState (perform : ι → Action σ α) (state : σ) (steps : List ι) : σ :=
  ((runSteps perform state steps).map Prod.fst).getLastD state

theorem endState_concat (state : σ) (steps : List ι) (step : ι) :
    endState perform state (steps ++ [step]) =
      (perform step).stateAfter (endState perform state steps) := by
  induction steps generalizing state with
  | nil => rfl
  | cons first rest ih =>
      have later := ih (perform first state).1
      simpa only [endState, List.cons_append, runSteps, List.map_cons, List.getLastD_cons] using later

theorem endState_invariant (kept : σ → Prop)
    (each : ∀ state step, kept state → kept ((perform step).stateAfter state))
    {state : σ} (start : kept state) (steps : List ι) : kept (endState perform state steps) := by
  induction steps using List.reverseRecOn with
  | nil => exact start
  | append_singleton steps step ih =>
      rw [endState_concat]
      exact each _ step ih

end Run

namespace Basis

variable {α ν : Type} {read : ν → Except Fault α} {b : Basis α}

/-- There is a term, all terms have one number of sides, which is at most two, and each term has one
coefficient. -/
structure WellFormed (b : Basis α) : Prop where
  nonempty : b.terms ≠ []
  sides : ∃ sides ≤ 2, ∀ term ∈ b.terms, term.length = sides
  coeffs : b.coeffs.length = b.numTerms

theorem checkTerms_eq_ok_iff {terms : List Term} :
    checkTerms terms = .ok () ↔
      terms ≠ [] ∧ ∃ sides ≤ 2, ∀ term ∈ terms, term.length = sides := by
  cases terms with
  | nil => simp [checkTerms]
  | cons first rest =>
      rw [checkTerms]
      constructor
      · intro checked
        split at checked
        · cases checked
        · next few =>
            split at checked
            · cases checked
            · next even =>
                refine ⟨List.cons_ne_nil first rest, first.length, by omega, ?_⟩
                intro term member
                rcases List.getElem?_of_mem member with ⟨index, present⟩
                have same := List.find?_eq_none.mp even (term, index)
                  (List.mem_zipIdx_iff_getElem?.mpr present)
                simpa using same
      · intro even
        rcases even with ⟨-, sides, few, same⟩
        have lengths := same first List.mem_cons_self
        rw [if_neg (by omega)]
        split
        · next term index found =>
            have uneven := List.find?_some found
            have present := List.mem_of_find?_eq_some found
            have member := List.fst_mem_of_mem_zipIdx present
            simp [lengths, same term member] at uneven
        · rfl

theorem assign_counted {coeffs : List ν} (read : ν → Except Fault α)
    (counted : coeffs.length = b.numTerms) :
    assign read coeffs b =
      match coeffs.mapM read with
      | .ok values => ({ b with coeffs := values }, pure ())
      | .error fault => (b, Report.fail fault) := by
  rw [assign, Action.get_bind, if_neg (not_not.mpr counted)]
  cases coeffs.mapM read <;> rfl

theorem assign_miscounted {coeffs : List ν} (read : ν → Except Fault α)
    (miscounted : coeffs.length ≠ b.numTerms) :
    assign read coeffs b = (b, Report.fail .coefficientCount) := by
  rw [assign, Action.get_bind, if_pos miscounted]
  rfl

theorem assign_eq_ok_iff {coeffs : List ν} :
    (assign read coeffs).outcome b = .ok () ↔
      coeffs.length = b.numTerms ∧ ∃ values, coeffs.mapM read = .ok values := by
  by_cases counted : coeffs.length = b.numTerms
  · rw [Action.outcome, assign_counted read counted]
    cases coeffs.mapM read with
    | error fault => simp [Report.fail, Report.ofExcept]
    | ok values => simp [counted]
  · rw [Action.outcome, assign_miscounted read counted]
    simp [Report.fail, Report.ofExcept, counted]

theorem stateAfter_assign {coeffs : List ν} {values : List α}
    (counted : coeffs.length = b.numTerms) (converted : coeffs.mapM read = .ok values) :
    (assign read coeffs).stateAfter b = { b with coeffs := values } := by
  rw [Action.stateAfter, assign_counted read counted, converted]

theorem make_eq_ok_iff {terms : List Term} {coeffs : List ν} :
    make read terms coeffs = .ok b ↔
      checkTerms terms = .ok () ∧ (assign read coeffs).outcome ⟨terms, []⟩ = .ok () ∧
        (assign read coeffs).stateAfter ⟨terms, []⟩ = b := by
  unfold make Action.outcome Action.stateAfter
  cases checkTerms terms with
  | error fault => simp [bind, Except.bind]
  | ok _ =>
      cases assign read coeffs ⟨terms, []⟩ with
      | mk held report =>
          cases returned : report.outcome with
          | error fault => simp [bind, Except.bind, returned]
          | ok _ => simp [bind, Except.bind, pure, Except.pure, returned]

theorem WellFormed.balanced (wellFormed : b.WellFormed) : b.Balanced := wellFormed.coeffs

theorem wellFormed_of_assign {coeffs : List ν} (checked : checkTerms b.terms = .ok ())
    (assigned : (assign read coeffs).outcome b = .ok ()) :
    ((assign read coeffs).stateAfter b).terms = b.terms ∧
      ((assign read coeffs).stateAfter b).WellFormed := by
  rcases assign_eq_ok_iff.mp assigned with ⟨counted, values, converted⟩
  rcases checkTerms_eq_ok_iff.mp checked with ⟨nonempty, sides⟩
  have length : values.length = b.numTerms :=
    (forall₂_of_mapM_ok converted).length_eq.symm.trans counted
  rw [stateAfter_assign counted converted]
  exact ⟨rfl, nonempty, sides, length⟩

theorem wellFormed_of_make {terms : List Term} {coeffs : List ν}
    (made : make read terms coeffs = .ok b) : b.terms = terms ∧ b.WellFormed := by
  rcases make_eq_ok_iff.mp made with ⟨checked, assigned, rfl⟩
  exact wellFormed_of_assign checked assigned

theorem balanced_of_make {terms : List Term} {coeffs : List ν}
    (made : make read terms coeffs = .ok b) : b.Balanced :=
  (wellFormed_of_make made).2.balanced

def after (read : ν → Except Fault α) (b : Basis α) (assignments : List (List ν)) : Basis α :=
  endState (assign read) b assignments

/-- The basis was accepted once, and then only its coefficients were assigned. -/
def Obtained (read : ν → Except Fault α) (b : Basis α) : Prop :=
  ∃ terms coeffs made assignments, make read terms coeffs = .ok made ∧
    b = made.after read assignments

theorem assign_keeps (terms : List Term) (coeffs : List ν)
    (held : b.terms = terms ∧ b.WellFormed) :
    ((assign read coeffs).stateAfter b).terms = terms ∧
      ((assign read coeffs).stateAfter b).WellFormed := by
  cases assigned : (assign read coeffs).outcome b with
  | error fault =>
      rw [assign_atomic read coeffs b fault assigned]
      exact held
  | ok _ =>
      rcases held with ⟨rfl, wellFormed⟩
      exact wellFormed_of_assign
        (checkTerms_eq_ok_iff.mpr ⟨wellFormed.nonempty, wellFormed.sides⟩) assigned

theorem after_keeps {terms : List Term} {coeffs : List ν} (made : make read terms coeffs = .ok b)
    (assignments : List (List ν)) :
    (b.after read assignments).terms = terms ∧ (b.after read assignments).WellFormed :=
  endState_invariant (fun b : Basis α => b.terms = terms ∧ b.WellFormed)
    (fun _ coeffs held => assign_keeps terms coeffs held) (wellFormed_of_make made) assignments

theorem after_concat (b : Basis α) (assignments : List (List ν)) (coeffs : List ν) :
    b.after read (assignments ++ [coeffs]) =
      (assign read coeffs).stateAfter (b.after read assignments) :=
  endState_concat b assignments coeffs

theorem Obtained.wellFormed (obtained : b.Obtained read) : b.WellFormed := by
  rcases obtained with ⟨terms, coeffs, made, assignments, accepted, rfl⟩
  exact (after_keeps accepted assignments).2

theorem Obtained.balanced (obtained : b.Obtained read) : b.Balanced := obtained.wellFormed.balanced

/-- A basis keeps its terms and its form along every run of assignments. One that fails changes
nothing. It succeeds if there is a number that can be read for each term, and these are then the
coefficients. So for bases with any such past, no weight is missing from the enumeration, nor for any
choice of a term from each. -/
theorem assignments_keep_form {ν α : Type} [One α] [Mul α] (read : ν → Except Fault α) :
    (∀ (terms : List Term) (coeffs : List ν) (made : Basis α), make read terms coeffs = .ok made →
      ∀ assignments : List (List ν),
        (made.after read assignments).terms = terms ∧ (made.after read assignments).WellFormed ∧
        ∀ next : List ν,
          ((assign read next).outcome (made.after read assignments) = .ok () ↔
            next.length = terms.length ∧ ∀ given ∈ next, ∃ coeff, read given = .ok coeff) ∧
          (∀ fault, (assign read next).outcome (made.after read assignments) = .error fault →
            made.after read (assignments ++ [next]) = made.after read assignments) ∧
          ((assign read next).outcome (made.after read assignments) = .ok () →
            List.Forall₂ (fun given coeff => read given = .ok coeff) next
              (made.after read (assignments ++ [next])).coeffs)) ∧
    ∀ bases : List (Basis α), (∀ b ∈ bases, b.Obtained read) →
      (∃ entries, (Configuration.enumerate bases).outcome = .ok entries ∧
        entries.length = Configuration.count bases) ∧
      ∀ chosen, Configuration.Admissible bases chosen →
        ∃ weight, Configuration.weight bases (chosen.map Number.ofNat) = .ok weight := by
  constructor
  · intro terms coeffs made accepted assignments
    rcases after_keeps accepted assignments with ⟨same, wellFormed⟩
    refine ⟨same, wellFormed, ?_⟩
    intro next
    rw [after_concat]
    refine ⟨?_, ?_, ?_⟩
    · rw [assign_eq_ok_iff, numTerms, same, mapM_returns_iff]
    · intro fault refused
      exact assign_atomic read next _ fault refused
    · intro assigned
      rcases assign_eq_ok_iff.mp assigned with ⟨counted, values, converted⟩
      rw [stateAfter_assign counted converted]
      exact forall₂_of_mapM_ok converted
  · intro bases obtained
    have balanced : ∀ b ∈ bases, b.Balanced := fun b member => (obtained b member).balanced
    rcases Configuration.enumerate_returns balanced with ⟨entries, listed, numbered⟩
    refine ⟨⟨entries, listed, ?_⟩, fun chosen admissible =>
      Configuration.weight_returns balanced admissible⟩
    rw [← List.length_map Prod.fst, numbered, List.length_map, List.length_range]

def parity : Basis Binary64 :=
  ⟨[[["x"], ["x"]], [[], ["z"]]], [Binary64.ofInt 1, Binary64.ofInt 2]⟩

def parityHistory : List (List Number) :=
  [[.integer 1], [.integer 3, .integer (10 ^ 400)], [.integer 4, .integer (-3)]]

def parityHeld : Basis Binary64 := parity.after Number.toBinary64 parityHistory

theorem parity_keeps_form :
    make Number.toBinary64 parity.terms [.integer 1, .integer 2] = .ok parity ∧
      parity.after Number.toBinary64 (parityHistory.take 2) = parity ∧
      parityHeld.coeffs = [Binary64.ofInt 4, Binary64.ofInt (-3)] ∧
      parityHeld.terms = parity.terms ∧ parityHeld.WellFormed ∧
      parity.after Number.toBinary64 (parityHistory ++ [[]]) = parityHeld ∧
      (∃ entries, (Configuration.enumerate [parity, parityHeld]).outcome = .ok entries ∧
        entries.length = 4) ∧
      ∃ weight, Configuration.weight [parity, parityHeld] [.integer 1, .integer 0] = .ok weight := by
  have accepted : make Number.toBinary64 parity.terms [.integer 1, .integer 2] = .ok parity := by
    decide +kernel
  have refused : (assign Number.toBinary64 []).outcome parityHeld = .error .coefficientCount := by
    decide +kernel
  have kept := assignments_keep_form Number.toBinary64
  rcases kept.1 _ _ parity accepted parityHistory with ⟨terms, wellFormed, next⟩
  have obtained : ∀ b ∈ [parity, parityHeld], b.Obtained Number.toBinary64 := by
    intro b member
    rcases List.mem_pair.mp member with same | same
    · exact ⟨_, _, parity, [], accepted, same⟩
    · exact ⟨_, _, parity, parityHistory, accepted, same⟩
  have total : Configuration.count [parity, parityHeld] = 4 := by decide +kernel
  rcases kept.2 [parity, parityHeld] obtained with ⟨listed, weighed⟩
  rw [total] at listed
  exact ⟨accepted, by decide +kernel, by decide +kernel, terms, wellFormed, (next []).2.1 _ refused,
    listed, weighed [1, 0] ⟨by decide +kernel, by decide +kernel, trivial⟩⟩

end Basis
end QuasiCut
