import QuasiCut.Fault

/-! Lists walked in step: one item of each list per round, and all lists end together. -/

namespace QuasiCut.Lockstep

def roundCount : List Nat → Nat
  | [] => 0
  | first :: rest => rest.foldl min first

/-- The verdict after the last complete round. The first list that has run out is too short; when
it is the very first one, the first list with an item left is too long. -/
def check (lengths : List Nat) : Except Fault Unit :=
  let rounds := roundCount lengths
  match lengths.findIdx? (· == rounds) with
  | none => .ok ()
  | some 0 =>
      match lengths.findIdx? (rounds < ·) with
      | none => .ok ()
      | some i => .error (.longerArgument (i + 1))
  | some i => .error (.shorterArgument (i + 1))

def rounds {α : Type} (lists : List (List α)) : Except Fault (List (List α)) := do
  let lengths := lists.map List.length
  check lengths
  return (List.range (roundCount lengths)).map fun i => lists.filterMap (·[i]?)

def zip {α β : Type} (left : List α) (right : List β) : Except Fault (List (α × β)) := do
  check [left.length, right.length]
  return left.zip right

end QuasiCut.Lockstep
