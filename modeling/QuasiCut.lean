import QuasiCut.Arithmetic
import QuasiCut.Basis.Basic
import QuasiCut.Basis.Standard
import QuasiCut.Batch
import QuasiCut.Binary64.Basic
import QuasiCut.Binary64.Integer
import QuasiCut.Binary64.Numeral
import QuasiCut.Binary64.Text
import QuasiCut.Circuit
import QuasiCut.Configuration
import QuasiCut.CutCircuit
import QuasiCut.Event
import QuasiCut.Fault
import QuasiCut.Forging
import QuasiCut.Fragment
import QuasiCut.GateCut
import QuasiCut.Index
import QuasiCut.Instruction
import QuasiCut.Knit
import QuasiCut.Lockstep
import QuasiCut.Number
import QuasiCut.Overhead
import QuasiCut.Plan
import QuasiCut.Reading
import QuasiCut.Report
import QuasiCut.Session
import QuasiCut.Steps
import QuasiCut.Text.Blank
import QuasiCut.Text.DecimalDigit
import QuasiCut.Text.Printable
import QuasiCut.Text.Quoted
import QuasiCut.WireCut.Basic
import QuasiCut.WireCut.Marker
import QuasiCut.WireCut.Slice
import QuasiCut.WireCut.Split
import QuasiCut.Proofs.Enumeration
import QuasiCut.Proofs.GateExpansion
import QuasiCut.Proofs.GateMeaning
import QuasiCut.Proofs.Operator
import QuasiCut.Proofs.GateTables
import QuasiCut.Proofs.Segments
import QuasiCut.Proofs.FragmentScan
import QuasiCut.Proofs.FragmentWidths
import QuasiCut.Proofs.Components
import QuasiCut.Proofs.SegmentGraph
import QuasiCut.Proofs.AcceptedCuts
import QuasiCut.Proofs.SliceBudget
import QuasiCut.Proofs.Feasibility
import QuasiCut.Proofs.Markers
import QuasiCut.Proofs.SplitPairs
import QuasiCut.Proofs.GateChoices
import QuasiCut.Proofs.LinkedQubits
import QuasiCut.Proofs.GateRemoval
import QuasiCut.Proofs.MarkerSlices
import QuasiCut.Proofs.JointWeights
import QuasiCut.Proofs.PlanLimit
import QuasiCut.Proofs.FailedSteps
import QuasiCut.Proofs.BasisHistory
import QuasiCut.Proofs.PlannedCuts
import QuasiCut.Proofs.WeightNorms
import QuasiCut.Proofs.WorkerPool
import QuasiCut.Proofs.ShortestPlan
import QuasiCut.Proofs.ClusterOrder
import QuasiCut.Proofs.FurtherCut
import QuasiCut.Proofs.Numbering
import QuasiCut.Proofs.StableSlices
import QuasiCut.Proofs.GivenIntegers
import QuasiCut.Proofs.GateOrder
import QuasiCut.Proofs.GateStages
import QuasiCut.Proofs.SplitBudget
import QuasiCut.Proofs.PlanEvents
import QuasiCut.Proofs.Translation
import QuasiCut.Proofs.Barriers
import QuasiCut.Proofs.Relabelling
import QuasiCut.Proofs.PreparedBits
import QuasiCut.Proofs.ForgedTerms
import QuasiCut.Proofs.LocalSides
import QuasiCut.Proofs.TotalWidth
