import BehaviorGraph.Report
import BehaviorGraph.Run
import BehaviorGraph.Source
import BehaviorGraph.Error
import BehaviorGraph.ValueType
import BehaviorGraph.Constant
import BehaviorGraph.BuiltIn
import BehaviorGraph.Kind
import BehaviorGraph.Payload
import BehaviorGraph.Fault
import BehaviorGraph.Table
import BehaviorGraph.Digraph
import BehaviorGraph.Graph.Basic
import BehaviorGraph.Graph.Edit
import BehaviorGraph.Graph.Redirect
import BehaviorGraph.Graph.Copy
import BehaviorGraph.Graph.Infer
import BehaviorGraph.Definition
import BehaviorGraph.Printer
import BehaviorGraph.Check.Report
import BehaviorGraph.Check.Edges
import BehaviorGraph.Check.Control
import BehaviorGraph.Check.Kinds
import BehaviorGraph.Check
import BehaviorGraph.Order.Dataflow
import BehaviorGraph.Order.Calls
import BehaviorGraph.Text.CodePoints
import BehaviorGraph.Text.Combining
import BehaviorGraph.Text.Invisible
import BehaviorGraph.Text
import BehaviorGraph.Traversal.Action
import BehaviorGraph.Traversal.Rule
import BehaviorGraph.Traversal.Options
import BehaviorGraph.Traversal.Visitor
import BehaviorGraph.Pass.ConstantFolding
import BehaviorGraph.Pass.Inlining
import BehaviorGraph.Pass.CastElimination
import BehaviorGraph.Pass.Merging
import BehaviorGraph.Pass.DeadValues
import BehaviorGraph.Pass.Verification
import BehaviorGraph.Traversal.Script
import BehaviorGraph.Pipeline.Registry
import BehaviorGraph.Pipeline.Plan
import BehaviorGraph.Pipeline.Standard
import BehaviorGraph.CommandLine
import BehaviorGraph.Compiler
import BehaviorGraph.Workbench
import BehaviorGraph.Main
import BehaviorGraph.Proofs.Slots
import BehaviorGraph.Proofs.Arena
import BehaviorGraph.Proofs.Bookkeeping
import BehaviorGraph.Proofs.Attaching
import BehaviorGraph.Proofs.Adding
import BehaviorGraph.Proofs.Runs
import BehaviorGraph.Proofs.Replacing
import BehaviorGraph.Proofs.Redirecting
import BehaviorGraph.Proofs.Copying
import BehaviorGraph.Proofs.Histories
import BehaviorGraph.Proofs.Faults
import BehaviorGraph.Proofs.Dataflow
import BehaviorGraph.Proofs.Interpretation
import BehaviorGraph.Proofs.Ordering
import BehaviorGraph.Proofs.Outline
import BehaviorGraph.Proofs.Scheduling
import BehaviorGraph.Proofs.Cycles
import BehaviorGraph.Proofs.Exchanging
import BehaviorGraph.Proofs.Evaluation
import BehaviorGraph.Proofs.Casts
import BehaviorGraph.Proofs.Rendering
import BehaviorGraph.Proofs.Eliminating
import BehaviorGraph.Proofs.Rules
import BehaviorGraph.Proofs.Visiting
import BehaviorGraph.Proofs.Rewriting
import BehaviorGraph.Proofs.Folding
import BehaviorGraph.Proofs.Handovers
import BehaviorGraph.Proofs.Worklists
import BehaviorGraph.Proofs.Conserving
import BehaviorGraph.Proofs.NormalForms
import BehaviorGraph.Proofs.Thinning
import BehaviorGraph.Proofs.Transcribing
import BehaviorGraph.Proofs.Grafting
import BehaviorGraph.Proofs.Transplanting
import BehaviorGraph.Proofs.Terms
import BehaviorGraph.Proofs.Inlining
import BehaviorGraph.Proofs.Verified
import BehaviorGraph.Proofs.ControlFlow
import BehaviorGraph.Proofs.Programs
import BehaviorGraph.Proofs.Expanding
import BehaviorGraph.Proofs.Pipeline
import BehaviorGraph.Proofs.Tours
import BehaviorGraph.Proofs.Insertions
import BehaviorGraph.Proofs.Resolving
import BehaviorGraph.Proofs.Attachable
import BehaviorGraph.Proofs.Retargeting
import BehaviorGraph.Proofs.Closures
import BehaviorGraph.Proofs.Words
import BehaviorGraph.Proofs.Arithmetic
import BehaviorGraph.Proofs.Conversions
import BehaviorGraph.Proofs.Duplicating
import BehaviorGraph.Proofs.Importing
import BehaviorGraph.Proofs.DeepCopies
import BehaviorGraph.Proofs.Relocating
import BehaviorGraph.Proofs.Diagnosing
import BehaviorGraph.Proofs.Sharing
import BehaviorGraph.Proofs.Pruning
import BehaviorGraph.Proofs.Sequencing
import BehaviorGraph.Proofs.Plans
import BehaviorGraph.Proofs.Choosing
import BehaviorGraph.Proofs.Receiving
import BehaviorGraph.Proofs.Saturating
import BehaviorGraph.Proofs.Entries
import BehaviorGraph.Proofs.Options
import BehaviorGraph.Proofs.Fixpoints
import BehaviorGraph.Proofs.Spans
import BehaviorGraph.Proofs.Positions
import BehaviorGraph.Proofs.Searching
import BehaviorGraph.Proofs.Framing
import BehaviorGraph.Proofs.Substituting
