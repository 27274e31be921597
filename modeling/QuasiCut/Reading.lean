import QuasiCut.Fault

/-! Numbers that a caller gives as text. Text that is no number is refused, and shown as given. -/

namespace QuasiCut

def Binary64.read (s : String) : Except Fault Binary64 :=
  match ofText? s with
  | some x => .ok x
  | none => .error (.unreadable s)

def Number.read (s : String) : Except Fault Number :=
  match ofText? s with
  | some (.integer n) =>
      let digits := (s.toList.filter Char.isDigit).length
      if digits ≤ digitLimit then .ok (.integer n) else .error (.tooManyDigits digits)
  | some x => .ok x
  | none => .error (.unreadable s)

end QuasiCut
