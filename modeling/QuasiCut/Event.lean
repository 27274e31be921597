import QuasiCut.Arithmetic
import QuasiCut.WireCut.Basic

/-! What a computation reports while it runs. -/

namespace QuasiCut

inductive Level where
  | debug
  | info
  | warning
  deriving DecidableEq, Repr

inductive Event where
  | proposed (cut : WireCut) (widths : List Nat)
  | found (cuts : Nat)
  | overBudget (cuts : Nat) (budget : Number)
  | cutting (cuts : Nat) (position : Int) (configurations : Nat)
  | sliced (subcircuits : Nat)
  | kept (gate : String)
  | skipped (gates : Nat)
  | enumerating (configurations : Nat) (bases : Nat)
  | truncated (used : Nat) (given : Nat)
  deriving DecidableEq, Repr

namespace Event

def level : Event → Level
  | proposed .. | sliced _ | kept _ => .debug
  | found _ | cutting .. | skipped _ | enumerating .. | truncated .. => .info
  | overBudget .. => .warning

def listText (items : List Nat) : String :=
  "[" ++ ", ".intercalate (items.map Nat.repr) ++ "]"

/-- The text of an event. A budget is shown without its fraction, so `nan` cannot be shown; nor can
a number of configurations that has too many digits. -/
def message (event : Event) : Except Fault String := do
  match event with
  | proposed cut widths =>
      let shown := cut.text
      let profile := listText widths
      return s!"Proposed cut {shown}; fragment qubits {profile}"
  | found cuts => return s!"Found {cuts} wire cuts"
  | overBudget cuts budget =>
      let shown ← budget.truncate
      return s!"{cuts} wire cuts do not bring every fragment within {shown} qubits"
  | cutting cuts position configurations =>
      let shown ← (Number.ofNat configurations).shown
      return s!"Cutting {cuts} wires at position {position} into {shown} configurations"
  | sliced subcircuits => return s!"Sliced circuit into {subcircuits} subcircuits"
  | kept gate => return s!"No gate-cut decomposition for ({gate}); keeping it as-is"
  | skipped gates => return s!"{gates} requested gate cuts cannot be decomposed"
  | enumerating configurations bases =>
      let shown ← (Number.ofNat configurations).shown
      return s!"Enumerating {shown} exact weights for {bases} bases"
  | truncated used given => return s!"Using {used} of {given} Schmidt coefficients"

def cutShort? : List Event → Option (List Event × Fault)
  | [] => none
  | event :: rest =>
      match event.message with
      | .error fault => some ([], fault)
      | .ok _ => (cutShort? rest).map fun (before, fault) => (event :: before, fault)

theorem cutShort?_append (first second : List Event) :
    cutShort? (first ++ second) =
      (cutShort? first <|>
        (cutShort? second).map fun (before, fault) => (first ++ before, fault)) := by
  induction first with
  | nil => cases h : cutShort? second <;> simp [cutShort?, h]
  | cons event rest ih =>
      simp only [List.cons_append, cutShort?]
      cases event.message with
      | error fault => rfl
      | ok text =>
          simp only [ih]
          cases cutShort? rest <;> cases cutShort? second <;> rfl

end Event
end QuasiCut
