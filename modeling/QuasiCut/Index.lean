/-! Positions counted from either end: `-1` is the last one. -/

namespace QuasiCut

/-- The position from the start that `index` names among `size` many. -/
def place? (size : Nat) (index : Int) : Option Nat :=
  if -(size : Int) ≤ index ∧ index < size then
    some (if index < 0 then index + size else index).toNat
  else none

theorem place?_lt {size place : Nat} {index : Int} (found : place? size index = some place) :
    place < size := by
  unfold place? at found
  split at found
  · injection found with found
    split at found <;> omega
  · cases found

theorem place?_natCast {size place : Nat} (inside : place < size) :
    place? size place = some place := by
  have bounds : -(size : Int) ≤ (place : Int) ∧ (place : Int) < size := by omega
  simp [place?, bounds, Int.not_lt.mpr (Int.natCast_nonneg place)]

def itemAt? {α : Type} (items : List α) (index : Int) : Option α :=
  match place? items.length index with
  | some place => items[place]?
  | none => none

def isWordSized (index : Int) : Bool :=
  decide (-(Nat.pow 2 63 : Int) ≤ index ∧ index < (Nat.pow 2 63 : Nat))

end QuasiCut
