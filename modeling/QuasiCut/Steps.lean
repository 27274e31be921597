import QuasiCut.Report

/-! Actions on a state. What an action has stored before it fails stays stored, and after a step
that fails the next one still runs. -/

namespace QuasiCut

variable {σ ι α β : Type}

/-- A computation on a state: the state it leaves, also where it fails, and what it reports. -/
def Action (σ α : Type) : Type := σ → σ × Report α

namespace Action

protected def pure (value : α) : Action σ α := fun state => (state, pure value)

protected def bind (first : Action σ α) (next : α → Action σ β) : Action σ β := fun state =>
  let (between, report) := first state
  match report.outcome with
  | .error fault => (between, ⟨report.events, .error fault⟩)
  | .ok value =>
      let (last, rest) := next value between
      (last, ⟨report.events ++ rest.events, rest.outcome⟩)

instance : Monad (Action σ) where
  pure := Action.pure
  bind := Action.bind

instance : MonadStateOf σ (Action σ) where
  get := fun state => (state, pure state)
  set next := fun _ => (next, pure ())
  modifyGet change := fun state => ((change state).2, pure (change state).1)

def ofReport (report : Report α) : Action σ α := fun state => (state, report)

instance : MonadLift Report (Action σ) := ⟨ofReport⟩

theorem get_bind (next : σ → Action σ β) (state : σ) :
    ((get : Action σ σ) >>= next) state = next state state := rfl

def stateAfter (action : Action σ α) (state : σ) : σ := (action state).1

def outcome (action : Action σ α) (state : σ) : Except Fault α := (action state).2.outcome

end Action

def runSteps (perform : ι → Action σ α) : σ → List ι → List (σ × Report α)
  | _, [] => []
  | state, step :: rest =>
      let reached := perform step state
      reached :: runSteps perform reached.1 rest

end QuasiCut
