import QuasiCut.Basis.Basic

/-! The bases of the gates that can be cut, and of a severed wire. -/

namespace QuasiCut.Basis

variable {α : Type} [Coefficient α]

def ofTable (rows : List (Side × Side × Rat)) : Basis α where
  terms := rows.map fun (first, second, _) => [first, second]
  coeffs := rows.map fun (_, _, coeff) => Coefficient.ofRat coeff

def cx : Basis α :=
  ofTable [([], [], 1 / 2), (["z"], ["z"], 1 / 2), (["x"], ["x"], 1 / 2), (["y"], ["y"], -1 / 2)]

def cz : Basis α :=
  ofTable [([], [], 1 / 4), (["z"], [], 1 / 4), ([], ["z"], 1 / 4), (["z"], ["z"], -1 / 4)]

def swap : Basis α :=
  ofTable [([], [], 1 / 4), (["x"], ["x"], 1 / 4), (["y"], ["y"], 1 / 4), (["z"], ["z"], 1 / 4)]

/-- A severed wire: what prepares the state at its end, and what changes the basis where it
continues. -/
def wire : Basis α :=
  ofTable [([], [], 1 / 2), (["x"], [], 1 / 2), (["h"], ["h"], 1 / 2),
    (["h", "s"], ["sdg", "h"], 1 / 2)]

def standard (name : String) : Except Fault (Basis α) :=
  if name = "cx" then .ok cx
  else if name = "cz" then .ok cz
  else if name = "swap" then .ok swap
  else if name = "cut_wire" then .ok wire
  else .error (.unsupported name)

end QuasiCut.Basis
