import QuasiCut.GateCut
import QuasiCut.Plan
import QuasiCut.Steps
import QuasiCut.WireCut.Marker
import QuasiCut.WireCut.Slice
import QuasiCut.WireCut.Split

/-! Sessions: named circuits and one current list of cuts, changed command by command. A command
that fails leaves the session as it was. -/

namespace QuasiCut

structure Session where
  slots : List (String × Circuit)
  cuts : List CutSite

namespace Session

inductive Command where
  | setCuts (cuts : List CutSite)
  | view (slot : String)
  | append (slot : String) (operation : Operation)
  | find (slot : String) (budget : Number)
  | estimate (slot : String)
  | readMarkers (slot : String) (into : String)
  | cutWires (slot : String) (index : Int) (before : String) (after : String)
  | slice (slot : String) (index : Int) (into : String)
  | cutGates (slot : String) (gates : List Number) (index : Int) (into : String)
  deriving DecidableEq, Repr

inductive Answer where
  | cuts (cuts : List CutSite)
  | circuit (circuit : Circuit)
  | widths (widths : List Nat)
  | stripped (circuit : Circuit) (cuts : List CutSite)
  | pair (pair : SplitPair Binary64)
  | sliced (result : CutCircuit)
  | expanded (experiment : Experiment Binary64) (overhead : Binary64)

def circuitOf (s : Session) (slot : String) : Except Fault Circuit :=
  match s.slots.lookup slot with
  | some c => .ok c
  | none => .error (.noSuchSlot slot)

def put (s : Session) (slot : String) (c : Circuit) : Session :=
  { s with slots := (slot, c) :: s.slots.filter (·.1 != slot) }

def chosen {α : Type} (results : List α) (index : Int) : Except Fault α :=
  match itemAt? results index with
  | some result => .ok result
  | none => .error (if isWordSized index then .noSuchResult else .indexTooWide)

/-- Carries out a command. Each of them stores what it has found out when all else is done. -/
def perform (recording : Bool) : Command → Action Session Answer
  | .setCuts cuts => do
      set { (← get) with cuts }
      return .cuts cuts
  | .view slot => do
      let s ← get
      let c ← s.circuitOf slot
      return .circuit c
  | .append slot operation => do
      let s ← get
      let c ← s.circuitOf slot
      let longer ← c.apply operation
      set (s.put slot longer)
      return .circuit longer
  | .find slot budget => do
      let s ← get
      let c ← s.circuitOf slot
      let found ← (c.findCuts budget).observed recording
      let cuts := found.map WireCut.site
      set { s with cuts }
      return .cuts cuts
  | .estimate slot => do
      let s ← get
      let c ← s.circuitOf slot
      return .widths (c.fragmentWidths (CutSite.cuts s.cuts))
  | .readMarkers slot into => do
      let s ← get
      let c ← s.circuitOf slot
      let (stripped, found) ← c.readMarkers
      let cuts := found.map WireCut.site
      set { s.put into stripped with cuts }
      return .stripped stripped cuts
  | .cutWires slot index before after => do
      let s ← get
      let c ← s.circuitOf slot
      let pairs ← (c.cutWiresAt s.cuts none).observed recording
      let pair ← chosen pairs index
      set ((s.put before pair.before).put after pair.after)
      return .pair pair
  | .slice slot index into => do
      let s ← get
      let c ← s.circuitOf slot
      let result ← (c.sliceAtSites s.cuts).observed recording
      let part ← chosen result.subcircuits index
      set (s.put into part)
      return .sliced result
  | .cutGates slot gates index into => do
      let s ← get
      let c ← s.circuitOf slot
      let result ← (c.cutGatesAt gates).observed recording
      let experiment ← chosen result.experiments index
      set (s.put into experiment.circuit)
      return .expanded experiment result.summary.overhead

def run (recording : Bool) (s : Session) (commands : List Command) : List (Report Answer) :=
  (runSteps (perform recording) s commands).map (·.2)

end Session
end QuasiCut
