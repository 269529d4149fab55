import WireFlow.Compiler
import WireFlow.Graph.Draft
import WireFlow.Graph.Meaning
import WireFlow.Proofs.Acceptance
import WireFlow.Proofs.Backends
import WireFlow.Proofs.MeaningKept
import WireFlow.Proofs.SweepKept
import WireFlow.Proofs.Checked
import WireFlow.Proofs.DefaultPipeline
import WireFlow.Proofs.Failures
import WireFlow.Proofs.AppendOnly
import WireFlow.Proofs.RunErrors
import WireFlow.Proofs.FixedPoint
import WireFlow.Proofs.Reachable
import WireFlow.Proofs.Accounts
import WireFlow.Proofs.Pinning
import WireFlow.Proofs.DeadRegisters
import WireFlow.Proofs.SweepFrame
import WireFlow.Proofs.SingleAssignment
import WireFlow.Proofs.FrameMap
import WireFlow.Proofs.SweepCounts
import WireFlow.Proofs.PhiAssignment
import WireFlow.Proofs.LoopFree
import WireFlow.Proofs.BitLists
import WireFlow.Proofs.BuiltMaps
import WireFlow.Proofs.Renaming
import WireFlow.Proofs.ConverseEdges
import WireFlow.Proofs.Drafts
import WireFlow.Proofs.Varints
import WireFlow.Proofs.FinishedDrafts
