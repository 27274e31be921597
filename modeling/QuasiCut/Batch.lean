import QuasiCut.Fault

/-! Work on many items, in the order of the items whatever the number of workers. -/

namespace QuasiCut.Batch

variable {α β : Type}

def checkWorkers (workers : Option Number) : Except Fault Unit :=
  match workers with
  | some n => if n.below 1 then .error (.tooFewWorkers n) else .ok ()
  | none => .ok ()

def run (workers : Option Number) (work : α → Except Fault β) (items : List α) :
    Except Fault (List β) := do
  checkWorkers workers
  items.mapM work

end QuasiCut.Batch
