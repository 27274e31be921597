import QuasiCut.Session

/-! Actions that change nothing where they fail. Whatever an action looks up first, it is one of
them if it stores last: so are the assignment of coefficients and every command of a session. -/

namespace QuasiCut

namespace Action

variable {σ α β : Type}

/-- Where the action fails, the state is as it was before. -/
def Atomic (action : Action σ α) : Prop :=
  ∀ state fault, action.outcome state = .error fault → action.stateAfter state = state

theorem atomic_pure (answer : α) : (pure answer : Action σ α).Atomic := by
  intro state fault refused
  cases refused

theorem atomic_set (next : σ) : (set next : Action σ PUnit).Atomic := by
  intro state fault refused
  cases refused

theorem atomic_set_bind (next : σ) (answer : α) :
    ((set next : Action σ PUnit) >>= fun _ => pure answer).Atomic := by
  intro state fault refused
  cases refused

theorem atomic_get_bind {next : σ → Action σ β} (later : ∀ state, (next state).Atomic) :
    ((get : Action σ σ) >>= next).Atomic := by
  intro state fault refused
  exact later state state fault refused

theorem atomic_ofReport_bind (report : Report α) {next : α → Action σ β}
    (later : ∀ value, (next value).Atomic) :
    ((ofReport report : Action σ α) >>= next).Atomic := by
  intro state fault refused
  cases report with
  | mk events outcome =>
      cases outcome with
      | error reason => rfl
      | ok value => exact later value state fault refused

-- Stored too early, the new state stays although the action fails.
example : ((set 1 : Action Nat PUnit) >>= fun _ => ofReport (Report.fail .noTerms : Report Unit)) 0 =
    (1, Report.fail .noTerms) := rfl

end Action

open QuasiCut.Action

theorem Basis.assign_atomic {α ν : Type} (read : ν → Except Fault α) (coeffs : List ν) :
    (assign read coeffs).Atomic := by
  refine atomic_get_bind fun b => ?_
  have stored : ((ofReport (Report.ofExcept (coeffs.mapM read)) : Action (Basis α) (List α)) >>=
      fun values => set { b with coeffs := values }).Atomic :=
    atomic_ofReport_bind _ fun values => atomic_set _
  split
  · exact atomic_ofReport_bind _ fun _ => stored
  · exact stored

namespace Session

theorem atomic_circuit_bind (slot : String) {next : Session → Circuit → Action Session Answer}
    (later : ∀ s c, (next s c).Atomic) :
    ((get : Action Session Session) >>= fun s =>
      ofReport (Report.ofExcept (s.circuitOf slot)) >>= next s).Atomic :=
  atomic_get_bind fun s => atomic_ofReport_bind _ (later s)

/-- A command that fails leaves the session as it was. -/
theorem perform_atomic (recording : Bool) (command : Command) :
    (perform recording command).Atomic := by
  cases command with
  | setCuts cuts => exact atomic_get_bind fun s => atomic_set_bind _ _
  | view slot => exact atomic_circuit_bind slot fun s c => atomic_pure _
  | append slot operation =>
      apply atomic_circuit_bind slot
      intro s c
      exact atomic_ofReport_bind _ fun longer => atomic_set_bind _ _
  | find slot budget =>
      apply atomic_circuit_bind slot
      intro s c
      exact atomic_ofReport_bind _ fun found => atomic_set_bind _ _
  | estimate slot => exact atomic_circuit_bind slot fun s c => atomic_pure _
  | readMarkers slot into =>
      apply atomic_circuit_bind slot
      intro s c
      exact atomic_ofReport_bind _ fun found => atomic_set_bind _ _
  | cutWires slot index before after =>
      apply atomic_circuit_bind slot
      intro s c
      apply atomic_ofReport_bind
      intro pairs
      exact atomic_ofReport_bind _ fun pair => atomic_set_bind _ _
  | slice slot index into =>
      apply atomic_circuit_bind slot
      intro s c
      apply atomic_ofReport_bind
      intro result
      exact atomic_ofReport_bind _ fun part => atomic_set_bind _ _
  | cutGates slot gates index into =>
      apply atomic_circuit_bind slot
      intro s c
      apply atomic_ofReport_bind
      intro result
      exact atomic_ofReport_bind _ fun experiment => atomic_set_bind _ _

end Session
end QuasiCut
