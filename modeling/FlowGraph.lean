import FlowGraph.Id
import FlowGraph.Opcode
import FlowGraph.Instr
import FlowGraph.Edge
import FlowGraph.Edge.Pool
import FlowGraph.Label.Table
import FlowGraph.Metadata
import FlowGraph.Block
import FlowGraph.Fault
import FlowGraph.Log
import FlowGraph.Graph.Basic
import FlowGraph.Graph.Code
import FlowGraph.Graph.Consistency
import FlowGraph.Graph.Incidence
import FlowGraph.Graph.Labels
import FlowGraph.Graph.Layout
import FlowGraph.Graph.Listing
import FlowGraph.Graph.Postorder
import FlowGraph.Graph.Terminator
import FlowGraph.Graph.Unreachable
import FlowGraph.Simplify.Report
import FlowGraph.Simplify.Rule
import FlowGraph.Simplify.Run
import FlowGraph.Dot
import FlowGraph.Proofs.Coherence
import FlowGraph.Proofs.Splicing
import FlowGraph.Proofs.Retirement
import FlowGraph.Proofs.Consistency
import FlowGraph.Proofs.Labels
import FlowGraph.Proofs.Search
import FlowGraph.Proofs.Elimination
import FlowGraph.Proofs.View
import FlowGraph.Proofs.Agreement
import FlowGraph.Proofs.Build
import FlowGraph.Proofs.Evolution
import FlowGraph.Proofs.Folding
import FlowGraph.Proofs.Merging
import FlowGraph.Proofs.Run
import FlowGraph.Proofs.Operation
import FlowGraph.Proofs.Change
import FlowGraph.Proofs.Reduction
import FlowGraph.Proofs.Integrity
import FlowGraph.Proofs.Weight
import FlowGraph.Proofs.Simplification
import FlowGraph.Proofs.Behaviour
import FlowGraph.Proofs.Meaning
import FlowGraph.Proofs.Pool
import FlowGraph.Proofs.Binding
import FlowGraph.Proofs.Effect
import FlowGraph.Proofs.Symmetry
import FlowGraph.Proofs.Emission
import FlowGraph.Proofs.Arrangement
import FlowGraph.Proofs.Retracing
import FlowGraph.Proofs.Quiet
import FlowGraph.Proofs.Caching
import FlowGraph.Proofs.Idempotence
import FlowGraph.Proofs.NormalForm
import FlowGraph.Proofs.Ledger
import FlowGraph.Proofs.Sentinels
import FlowGraph.Proofs.Lifecycle
import FlowGraph.Proofs.Derivation
import FlowGraph.Proofs.Atomicity
import FlowGraph.Proofs.DepthFirst
import FlowGraph.Proofs.Postorder
import FlowGraph.Proofs.Purge
import FlowGraph.Proofs.DeadCode
import FlowGraph.Proofs.Reachability
import FlowGraph.Proofs.Trimming
import FlowGraph.Proofs.Reattachment
import FlowGraph.Proofs.Balance
import FlowGraph.Proofs.Escaping
import FlowGraph.Proofs.Metadata
import FlowGraph.Proofs.Doubling
import FlowGraph.Proofs.Legibility
import FlowGraph.Proofs.Peak
