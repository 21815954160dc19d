import PointsTo.Analyzer
import PointsTo.CallGraph.Basic
import PointsTo.CallGraph.ClassAnalysis
import PointsTo.CallGraph.MethodGraph
import PointsTo.Closure
import PointsTo.Config.Basic
import PointsTo.Config.Document
import PointsTo.Config.Encoding
import PointsTo.Context.Basic
import PointsTo.Context.Selector
import PointsTo.FlowGraph
import PointsTo.Heap
import PointsTo.Id
import PointsTo.Ordered
import PointsTo.Program.Basic
import PointsTo.Program.Declaration
import PointsTo.Program.Encoding
import PointsTo.Program.Hierarchy
import PointsTo.Program.Statement
import PointsTo.Program.World
import PointsTo.Qualified
import PointsTo.Result.AliasIndex
import PointsTo.Result.Summary
import PointsTo.Result.View
import PointsTo.Solver.Naming
import PointsTo.Solver.Run
import PointsTo.Solver.State
import PointsTo.Solver.Step
import PointsTo.SparseSet
import PointsTo.Table
import PointsTo.Taint.Flow
import PointsTo.Taint.Rules
import PointsTo.Value.Basic
import PointsTo.Value.Json
import PointsTo.Value.JsonReader
import PointsTo.Value.Scalar
import PointsTo.WorkList
import PointsTo.Yaml.Document
import PointsTo.Yaml.Extract
import PointsTo.Yaml.ScalarText
import PointsTo.Yaml.Tag
import PointsTo.Yaml.Text
import PointsTo.Yaml.Token
import PointsTo.Yaml.Writer
import PointsTo.Proofs.FlowGraph
import PointsTo.Proofs.Inference
import PointsTo.Proofs.Meaning
import PointsTo.Proofs.Moves
import PointsTo.Proofs.Leads
import PointsTo.Proofs.Step
import PointsTo.Proofs.Arrival
import PointsTo.Proofs.Finished
import PointsTo.Proofs.Termination
import PointsTo.Proofs.Contexts
import PointsTo.Proofs.Building
import PointsTo.Proofs.Accepted
import PointsTo.Proofs.Universe
import PointsTo.Proofs.Bounds
import PointsTo.Proofs.Exactness
import PointsTo.Proofs.Taint
import PointsTo.Proofs.Flows
import PointsTo.Proofs.Confluence
import PointsTo.Proofs.Nodes
import PointsTo.Proofs.Projection
import PointsTo.Proofs.Coarsening
import PointsTo.Proofs.Precision
import PointsTo.Proofs.Renaming
import PointsTo.Proofs.Lockstep
import PointsTo.Proofs.Halting
import PointsTo.Proofs.Origins
import PointsTo.Proofs.Receivers
import PointsTo.Proofs.Monotonicity
import PointsTo.Proofs.Closure
import PointsTo.Proofs.Hierarchy
import PointsTo.Proofs.Subtyping
import PointsTo.Proofs.Dispatch
import PointsTo.Proofs.ClassAnalysis
import PointsTo.Proofs.OnTheFly
import PointsTo.Proofs.Conservativity
import PointsTo.Proofs.FurtherRules
import PointsTo.Proofs.Changes
import PointsTo.Proofs.Arity
import PointsTo.Proofs.Reached
import PointsTo.Proofs.Drawing
import PointsTo.Proofs.CallStrings
import PointsTo.Proofs.Lookups
import PointsTo.Proofs.FiniteSets
import PointsTo.Proofs.Resolution
import PointsTo.Proofs.ContextErasure
import PointsTo.Proofs.Aliases
import PointsTo.Proofs.Recursion
import PointsTo.Proofs.Transit
import PointsTo.Proofs.Configurations
import PointsTo.Proofs.Summaries
import PointsTo.Proofs.Insertions
import PointsTo.Proofs.Interning
import PointsTo.Proofs.InFlight
import PointsTo.Proofs.Mirroring
import PointsTo.Proofs.Identity
import PointsTo.Proofs.FlowHistory
import PointsTo.Proofs.HierarchyHistory
