import Mathlib
import QuasiCut.Proofs.ShortestPlan

/-! What is reported while a plan is made. Each cut is reported with the widths of the fragments at
that point, and the verdict comes last. Nothing is reported when nothing is cut, and a circuit that
does not fit has some cut, so the events and the plan never disagree. -/

namespace QuasiCut

namespace Report

variable {α β : Type}

def eventsAt (report : Report α) (level : Level) : List Event :=
  report.events.filter fun event => decide (event.level = level)

theorem events_bind_of_ok {first : Report α} {value : α} (returned : first.outcome = .ok value)
    (next : α → Report β) : (first >>= next).events = first.events ++ (next value).events := by
  obtain ⟨events, outcome⟩ := first
  cases returned
  rfl

theorem events_liftM_bind (first : Except Fault α) (next : α → β) :
    ((liftM first : Report α) >>= fun value => pure (next value)).events = [] := by
  cases first <;> rfl

end Report

namespace Number

theorem truncate_returns {x : Number} {m n : Int} (reached : x.atLeast m = true)
    (missed : x.atLeast n = false) : ∃ shown, x.truncate = .ok shown := by
  cases x with
  | integer k => exact ⟨k, rfl⟩
  | binary y =>
      cases y with
      | nan => cases reached
      | infinite negative =>
          -- Such a budget exceeds every width or none.
          have same : (Number.binary (.infinite negative)).atLeast m =
              (Number.binary (.infinite negative)).atLeast n := rfl
          rw [reached, missed] at same
          cases same
      | finite negative k q => exact ⟨_, rfl⟩

end Number

namespace Circuit

variable {c : Circuit} {budget : Number} {cuts : List WireCut}

theorem exists_exceeding (unfit : c.cutsFit cuts budget = false) :
    ∃ width ∈ c.fragmentWidths cuts, budget.atLeast width = false := by
  rw [cutsFit, withinBudget, List.all_eq_false] at unfit
  obtain ⟨width, listed, exceeds⟩ := unfit
  exact ⟨width, listed, Bool.eq_false_iff.mpr exceeds⟩

section Attempts

theorem attempts_eq_mapIdx (placed cuts : List WireCut) :
    c.attempts placed cuts = cuts.mapIdx fun n cut =>
      .proposed cut (c.fragmentWidths (placed ++ cuts.take (n + 1))) := by
  induction cuts generalizing placed with
  | nil => rfl
  | cons cut rest ih =>
      rw [attempts, ih, List.mapIdx_cons]
      simp

theorem mem_attempts {placed : List WireCut} {event : Event}
    (member : event ∈ c.attempts placed cuts) :
    ∃ cut widths, event = .proposed cut widths := by
  rw [attempts_eq_mapIdx] at member
  obtain ⟨n, inside, same⟩ := List.mem_mapIdx.mp member
  exact ⟨_, _, same.symm⟩

end Attempts

def verdict (c : Circuit) (budget : Number) (cuts : List WireCut) : Event :=
  if c.cutsFit cuts budget then .found cuts.length else .overBudget cuts.length budget

def searchEvents (c : Circuit) (budget : Number) (cuts : List WireCut) : List Event :=
  if cuts = [] then [] else c.attempts [] cuts ++ [c.verdict budget cuts]

section Search

/-- A search that goes on after these cuts reports each further attempt and a verdict. Nothing that
it had placed before the last attempt fits. -/
theorem placeCuts_report {placed : List WireCut} (unfit : c.cutsFit placed budget = false)
    (rest : List WireCut) :
    ∃ taken, c.placeCuts budget placed rest =
        ⟨c.attempts placed taken ++ [c.verdict budget (placed ++ taken)], .ok (placed ++ taken)⟩ ∧
      (taken = [] → rest = []) ∧
      ∀ n < taken.length, c.cutsFit (placed ++ taken.take n) budget = false := by
  induction rest generalizing placed with
  | nil =>
      refine ⟨[], ?_, fun _ => rfl, fun n none => absurd none (Nat.not_lt_zero n)⟩
      rw [List.append_nil, verdict, unfit]
      rfl
  | cons cut rest ih =>
      have before : c.cutsFit (placed ++ []) budget = false := by
        rw [List.append_nil]
        exact unfit
      cases fit : c.cutsFit (placed ++ [cut]) budget with
      | true =>
          have within : withinBudget (c.fragmentWidths (placed ++ [cut])) budget = true := fit
          refine ⟨[cut], ?_, fun empty => absurd empty (List.cons_ne_nil _ _), ?_⟩
          · rw [placeCuts, within, if_pos rfl, verdict, fit]
            rfl
          · intro n first
            rw [Nat.lt_one_iff.mp first]
            exact before
      | false =>
          have exceeded : withinBudget (c.fragmentWidths (placed ++ [cut])) budget = false := fit
          obtain ⟨taken, report, -, later⟩ := ih fit
          simp only [List.append_assoc, List.singleton_append] at report later
          refine ⟨cut :: taken, ?_, fun empty => absurd empty (List.cons_ne_nil _ _), ?_⟩
          · rw [placeCuts, exceeded, if_neg Bool.false_ne_true, report]
            rfl
          · intro n inside
            cases n with
            | zero => exact before
            | succ n => exact later n (Nat.lt_of_succ_lt_succ inside)

theorem findCuts_report (positive : budget.atLeast 1 = true) :
    ∃ cuts, c.findCuts budget = ⟨c.searchEvents budget cuts, .ok cuts⟩ ∧
      (cuts = [] → c.cutsFit [] budget = true) ∧
      ∀ n < cuts.length, c.cutsFit (cuts.take n) budget = false := by
  rw [findCuts_eq positive]
  cases fit : c.cutsFit [] budget with
  | true => exact ⟨[], rfl, fun _ => rfl, fun n none => absurd none (Nat.not_lt_zero n)⟩
  | false =>
      obtain ⟨cuts, report, all, shorter⟩ := placeCuts_report fit c.proposals
      have some : cuts ≠ [] := by
        intro empty
        rw [cutsFit_of_no_proposals positive (all empty)] at fit
        cases fit
      refine ⟨cuts, ?_, fun empty => absurd empty some, shorter⟩
      rw [if_neg Bool.false_ne_true, report, searchEvents, if_neg some, List.nil_append]

end Search

section Levels

theorem attempts_debug (placed cuts : List WireCut) :
    (c.attempts placed cuts).filter (fun event => decide (event.level = .debug)) =
      c.attempts placed cuts := by
  apply List.filter_eq_self.mpr
  intro event member
  obtain ⟨cut, widths, rfl⟩ := mem_attempts member
  rfl

theorem attempts_other {level : Level} (other : Level.debug ≠ level) (placed cuts : List WireCut) :
    (c.attempts placed cuts).filter (fun event => decide (event.level = level)) = [] := by
  apply List.filter_eq_nil_iff.mpr
  intro event member
  obtain ⟨cut, widths, rfl⟩ := mem_attempts member
  rw [decide_eq_true_eq]
  exact other

theorem searchEvents_debug :
    (c.searchEvents budget cuts).filter (fun event => decide (event.level = .debug)) =
      c.attempts [] cuts := by
  rw [searchEvents]
  split
  · next empty =>
      rw [empty]
      rfl
  · rw [List.filter_append, attempts_debug, verdict]
    split
    · exact List.append_nil _
    · exact List.append_nil _

theorem searchEvents_warning (covered : cuts = [] → c.cutsFit [] budget = true) :
    (c.searchEvents budget cuts).filter (fun event => decide (event.level = .warning)) =
      if c.cutsFit cuts budget then [] else [.overBudget cuts.length budget] := by
  rw [searchEvents]
  split
  · next empty =>
      rw [empty, covered empty]
      rfl
  · rw [List.filter_append, attempts_other (by decide), verdict, List.nil_append]
    split
    · rfl
    · rfl

theorem searchEvents_info :
    (c.searchEvents budget cuts).filter (fun event => decide (event.level = .info)) =
      if c.cutsFit cuts budget = true ∧ cuts ≠ [] then [.found cuts.length] else [] := by
  by_cases empty : cuts = []
  · rw [searchEvents, if_pos empty, if_neg fun both => both.2 empty]
    rfl
  · rw [searchEvents, if_neg empty, List.filter_append, attempts_other (by decide), verdict,
      List.nil_append]
    by_cases fit : c.cutsFit cuts budget = true
    · rw [if_pos fit, if_pos ⟨fit, empty⟩]
      rfl
    · rw [if_neg fit, if_neg fun both => fit both.1]
      rfl

theorem verdict_message (positive : budget.atLeast 1 = true) :
    ∃ text, (c.verdict budget cuts).message = .ok text := by
  cases fit : c.cutsFit cuts budget with
  | true =>
      rw [verdict, fit]
      exact ⟨_, rfl⟩
  | false =>
      obtain ⟨width, -, exceeds⟩ := exists_exceeding fit
      obtain ⟨shown, truncated⟩ := Number.truncate_returns positive exceeds
      rw [verdict, fit, if_neg Bool.false_ne_true, Event.message, truncated]
      exact ⟨_, rfl⟩

theorem searchEvents_message (positive : budget.atLeast 1 = true) :
    ∀ event ∈ c.searchEvents budget cuts, ∃ text, event.message = .ok text := by
  intro event member
  rw [searchEvents] at member
  split at member
  · cases member
  · rcases List.mem_append.mp member with tried | last
    · obtain ⟨cut, widths, rfl⟩ := mem_attempts tried
      exact ⟨_, rfl⟩
    · rw [List.mem_singleton.mp last]
      exact verdict_message positive

end Levels

end Circuit

namespace Device

variable (device : Device) {c : Circuit} {cuts : List WireCut}

theorem plan_events (found : (c.findCuts device.width).outcome = .ok cuts) :
    (device.plan c).events = (c.findCuts device.width).events := by
  rw [plan, Report.events_bind_of_ok found, Report.events_liftM_bind, List.append_nil]

/-- The plan and the events that were reported with it say the same. -/
structure Accounts (device : Device) (c : Circuit) (plan : Plan) (report : Report Plan) : Prop where
  widths : plan.widths = c.fragmentWidths plan.cuts
  fits : plan.fits = c.cutsFit plan.cuts device.width
  warnings : report.eventsAt .warning =
    if plan.fits then [] else [.overBudget plan.cuts.length device.width]
  unfit : plan.fits = false → plan.cuts ≠ []
  infos : report.eventsAt .info =
    if plan.fits = true ∧ plan.cuts ≠ [] then [.found plan.cuts.length] else []
  attempts : report.eventsAt .debug = plan.cuts.mapIdx fun n cut =>
    .proposed cut (c.fragmentWidths (plan.cuts.take (n + 1)))
  exceeded : ∀ n, n + 1 < plan.cuts.length →
    ∃ width ∈ c.fragmentWidths (plan.cuts.take (n + 1)), device.width.atLeast width = false
  texts : ∀ event ∈ report.events, ∃ text, event.message = .ok text

/-- Whenever there is a plan, its widths and its verdict are those of its cuts. There is a warning
exactly if they do not fit, and then something is cut; a number of cuts is announced exactly if they
fit and there are some. Each cut in turn is reported with the widths that it leaves, and none but
the last of these are within the budget. -/
theorem plan_accounts (device : Device) (c : Circuit) (positive : device.width.atLeast 1 = true)
    (plan : Plan) (returned : (device.plan c).outcome = .ok plan) :
    device.Accounts c plan (device.plan c) := by
  obtain ⟨cuts, report, covered, shorter⟩ := Circuit.findCuts_report (c := c) positive
  have found : (c.findCuts device.width).outcome = .ok cuts := by rw [report]
  have events : (device.plan c).events = c.searchEvents device.width cuts := by
    rw [device.plan_events found, report]
  rw [device.plan_of_found found] at returned
  cases priced : samplingOverhead cuts.length 0 with
  | error fault =>
      rw [priced] at returned
      cases returned
  | ok overhead =>
      rw [priced] at returned
      cases returned
      constructor
      · rfl
      · rfl
      · rw [Report.eventsAt, events]
        exact Circuit.searchEvents_warning covered
      · intro unfit empty
        have fits : c.cutsFit cuts device.width = true := by
          rw [show cuts = [] from empty]
          exact covered empty
        exact absurd fits (Bool.eq_false_iff.mp unfit)
      · rw [Report.eventsAt, events]
        exact Circuit.searchEvents_info
      · rw [Report.eventsAt, events, Circuit.searchEvents_debug]
        exact Circuit.attempts_eq_mapIdx [] cuts
      · intro n more
        exact Circuit.exists_exceeding (shorter (n + 1) more)
      · rw [events]
        exact Circuit.searchEvents_message positive

theorem relapse_accounts :
    (∃ plan, ((⟨.integer 2⟩ : Device).plan .relapse).outcome = .ok plan ∧
      plan.cuts = [⟨1, 1⟩] ∧ plan.fits = true ∧
      Accounts ⟨.integer 2⟩ .relapse plan
        ⟨[.proposed ⟨1, 1⟩ [2, 2], .found 1], .ok plan⟩) ∧
    ∃ plan, ((⟨.integer 1⟩ : Device).plan .relapse).outcome = .ok plan ∧
      plan.cuts = Circuit.relapse.proposals ∧ plan.fits = false ∧
      Accounts ⟨.integer 1⟩ .relapse plan
        ⟨[.proposed ⟨1, 1⟩ [2, 2], .proposed ⟨2, 2⟩ [2, 3], .proposed ⟨3, 2⟩ [2, 3],
          .overBudget 3 (.integer 1)], .ok plan⟩ := by
  have two := plan_accounts ⟨.integer 2⟩ .relapse (by decide)
  have one := plan_accounts ⟨.integer 1⟩ .relapse (by decide)
  constructor
  · exact ⟨_, rfl, rfl, rfl, two _ rfl⟩
  · exact ⟨_, rfl, rfl, rfl, one _ rfl⟩

end Device
end QuasiCut
