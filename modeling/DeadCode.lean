import DeadCode.Execution
import DeadCode.Func.Change
import DeadCode.Func.Strict
import DeadCode.Func.Text
import DeadCode.Func.WellFormed
import DeadCode.Liveness.Path
import DeadCode.Elimination.Batch
import DeadCode.Session
import DeadCode.Pile
import DeadCode.Proofs.Arena
import DeadCode.Proofs.Graph
import DeadCode.Proofs.PredTable
import DeadCode.Proofs.Verification
import DeadCode.Proofs.FirstFault
import DeadCode.Proofs.History
import DeadCode.Proofs.Removal
import DeadCode.Proofs.InPlaceRemoval
import DeadCode.Proofs.Mutation
import DeadCode.Proofs.Liveness.VisitOrder
import DeadCode.Proofs.Traversal
import DeadCode.Proofs.Liveness.Equations
import DeadCode.Proofs.Liveness.Sweep
import DeadCode.Proofs.Liveness.Settle
import DeadCode.Proofs.Liveness.Exact
import DeadCode.Proofs.Liveness.Answered
import DeadCode.Proofs.Liveness.Unused
import DeadCode.Proofs.Liveness.SweepCount
import DeadCode.Proofs.Liveness.Acyclic
import DeadCode.Proofs.Liveness.Events
import DeadCode.Proofs.Liveness.Strict
import DeadCode.Proofs.Elimination.Course
import DeadCode.Proofs.Elimination.Meaning
import DeadCode.Proofs.Elimination.Chains
import DeadCode.Proofs.Elimination.Rounds
import DeadCode.Proofs.Elimination.NeverHalts
import DeadCode.Proofs.Elimination.LocalDeadness
import DeadCode.Proofs.Elimination.Structure
import DeadCode.Proofs.Elimination.Stages
import DeadCode.Proofs.Elimination.Accounting
import DeadCode.Proofs.Elimination.Batch
import DeadCode.Proofs.Staleness
import DeadCode.Proofs.Liveness.SweepOrder
import DeadCode.Proofs.Liveness.LiveAfter
import DeadCode.Proofs.Elimination.Shrinking
import DeadCode.Proofs.Elimination.Rejection
import DeadCode.Proofs.Liveness.Components
import DeadCode.Proofs.Predecessors
import DeadCode.Proofs.ValueText
import DeadCode.Proofs.CanonicalSets
import DeadCode.Proofs.Counts
