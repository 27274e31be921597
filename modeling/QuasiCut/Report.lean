import QuasiCut.Event

/-! Computations that report events. The events before a fault are kept. -/

namespace QuasiCut

structure Report (α : Type) where
  events : List Event
  outcome : Except Fault α

namespace Report

variable {α β γ : Type}

protected def pure (value : α) : Report α := ⟨[], .ok value⟩

protected def bind (first : Report α) (next : α → Report β) : Report β :=
  match first.outcome with
  | .error fault => ⟨first.events, .error fault⟩
  | .ok value =>
      let second := next value
      ⟨first.events ++ second.events, second.outcome⟩

instance : Monad Report where
  pure := Report.pure
  bind := Report.bind

def emit (event : Event) : Report Unit := ⟨[event], .ok ()⟩

def ofExcept (outcome : Except Fault α) : Report α := ⟨[], outcome⟩

instance : MonadLift (Except Fault) Report := ⟨ofExcept⟩

def fail (fault : Fault) : Report α := ofExcept (.error fault)

/-- The computation when its events are written down as they occur: an event that has no text
ends it. -/
def recorded (report : Report α) : Report α :=
  match Event.cutShort? report.events with
  | none => report
  | some (before, fault) => ⟨before, .error fault⟩

def observed (recording : Bool) (report : Report α) : Report α :=
  if recording then report.recorded else report

@[simp] theorem fail_bind (fault : Fault) (next : α → Report β) :
    (fail fault : Report α) >>= next = fail fault := rfl

@[simp] theorem ofExcept_ok (value : α) :
    ofExcept (.ok value) = (pure value : Report α) := rfl

@[simp] theorem ofExcept_error (fault : Fault) :
    ofExcept (.error fault) = (fail fault : Report α) := rfl

@[simp] theorem events_emit_bind (event : Event) (next : Unit → Report β) :
    (emit event >>= next).events = event :: (next ()).events := rfl

@[simp] theorem outcome_emit_bind (event : Event) (next : Unit → Report β) :
    (emit event >>= next).outcome = (next ()).outcome := rfl

@[simp] theorem outcome_pure (value : α) : (pure value : Report α).outcome = .ok value := rfl

@[simp] theorem liftM_ok (value : α) :
    (liftM (Except.ok value : Except Fault α) : Report α) = pure value := rfl

theorem outcome_liftM_bind (first : Except Fault α) (next : α → Report β) :
    ((liftM first : Report α) >>= next).outcome = first >>= fun value => (next value).outcome := by
  cases first <;> rfl

theorem outcome_bind_of_ok {first : Report α} {value : α} (returned : first.outcome = .ok value)
    (next : α → Report β) : (first >>= next).outcome = (next value).outcome := by
  obtain ⟨events, outcome⟩ := first
  cases returned
  rfl

theorem outcome_ite_emit {condition : Prop} [Decidable condition] (event : Event)
    (next : Unit → Report β) :
    (if condition then emit event >>= next else next ()).outcome = (next ()).outcome := by
  split <;> rfl

theorem outcome_bind_eq_ok {first : Report α} {next : α → Report β} {result : β}
    (returned : (first >>= next).outcome = .ok result) :
    ∃ value, first.outcome = .ok value ∧ (next value).outcome = .ok result := by
  obtain ⟨events, outcome⟩ := first
  cases outcome with
  | error fault => cases returned
  | ok value => exact ⟨value, rfl, returned⟩

instance : LawfulMonad Report := LawfulMonad.mk' Report
  (by
    intro α ⟨events, outcome⟩
    cases outcome <;> simp [Functor.map, Report.bind, Report.pure])
  (by
    intro α β value next
    simp [Bind.bind, Pure.pure, Report.bind, Report.pure])
  (by
    intro α β γ ⟨events, outcome⟩ f g
    cases outcome with
    | error fault => rfl
    | ok value =>
        simp only [Bind.bind, Report.bind]
        cases (f value).outcome <;> simp)

theorem outcome_bind (first : Report α) (next : α → Report β) :
    (first >>= next).outcome = first.outcome >>= fun value => (next value).outcome := by
  obtain ⟨events, outcome⟩ := first
  cases outcome <;> rfl

theorem outcome_mapM (work : α → Report β) (items : List α) :
    (items.mapM work).outcome = items.mapM fun item => (work item).outcome := by
  induction items with
  | nil => rfl
  | cons item rest ih =>
      simp only [List.mapM_cons, outcome_bind, outcome_pure, ih]
      rfl

theorem recorded_pure (value : α) : (pure value : Report α).recorded = pure value := rfl

theorem recorded_bind (first : Report α) (next : α → Report β) :
    (first >>= next).recorded = first.recorded >>= fun value => (next value).recorded := by
  obtain ⟨events, outcome⟩ := first
  cases outcome with
  | error fault =>
      simp only [recorded, Bind.bind, Report.bind]
      cases Event.cutShort? events <;> rfl
  | ok value =>
      simp only [recorded, Bind.bind, Report.bind, Event.cutShort?_append]
      cases Event.cutShort? events with
      | some stop => rfl
      | none => cases short : Event.cutShort? (next value).events <;> simp [short]

end Report
end QuasiCut
