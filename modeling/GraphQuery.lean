import GraphQuery.Batch
import GraphQuery.Expr.Printer
import GraphQuery.Graph.Merge
import GraphQuery.Query.Printer
import GraphQuery.Query.Project
import GraphQuery.Ty.Printer
import GraphQuery.Value.Printer
import GraphQuery.Proofs.Except
import GraphQuery.Proofs.Reference.Arena
import GraphQuery.Proofs.Typed.Accepts
import GraphQuery.Proofs.Typed.Judgement
import GraphQuery.Proofs.Op.Simulation
import GraphQuery.Proofs.Op.Program
import GraphQuery.Proofs.Conformance
import GraphQuery.Proofs.Schema.Built
import GraphQuery.Proofs.Typed.Safety
import GraphQuery.Proofs.Schema.Safety
import GraphQuery.Proofs.Ty.Resolution
import GraphQuery.Proofs.Ty.Walks
import GraphQuery.Proofs.Ty.Unfolding
import GraphQuery.Proofs.Ty.Comparison
import GraphQuery.Proofs.Ty.Subsumption
import GraphQuery.Proofs.Ty.Preorder
import GraphQuery.Proofs.Query.Selects
import GraphQuery.Proofs.Query.MergeRequirements
import GraphQuery.Proofs.Query.Project
import GraphQuery.Proofs.Typed.Tracked
import GraphQuery.Proofs.Requirement.Chain
import GraphQuery.Proofs.Requirement.Collect
import GraphQuery.Proofs.Requirement.Supply
import GraphQuery.Proofs.Requirement.Projected
import GraphQuery.Proofs.Requirement.Faithful
import GraphQuery.Proofs.Query.Restrict
import GraphQuery.Proofs.Ty.Flat
import GraphQuery.Proofs.Schema.Requirements
import GraphQuery.Proofs.Batch.Plan
import GraphQuery.Proofs.Batch.Independence
import GraphQuery.Proofs.Paired
import GraphQuery.Proofs.Value.Equality
import GraphQuery.Proofs.Query.Height
import GraphQuery.Proofs.Query.Heads
import GraphQuery.Proofs.Query.Slots
import GraphQuery.Proofs.Query.Level
import GraphQuery.Proofs.Query.Merging
import GraphQuery.Proofs.Query.Meaning
import GraphQuery.Proofs.Graph.Meaning
import GraphQuery.Proofs.Query.Collisions
import GraphQuery.Proofs.Query.Alike
import GraphQuery.Proofs.Query.Reordering
import GraphQuery.Proofs.Query.Equal
import GraphQuery.Proofs.Query.Counting
import GraphQuery.Proofs.Query.Equality
import GraphQuery.Proofs.Query.OneWay
import GraphQuery.Proofs.Query.NotANumber
import GraphQuery.Proofs.Query.Union
import GraphQuery.Proofs.Requirement.Sources
import GraphQuery.Proofs.Requirement.Exact
import GraphQuery.Proofs.Query.Remerging
import GraphQuery.Proofs.Graph.Canonical
import GraphQuery.Proofs.Query.Repetition
import GraphQuery.Proofs.Query.Descent
import GraphQuery.Proofs.Graph.Levels
import GraphQuery.Proofs.Graph.Directives
import GraphQuery.Proofs.Graph.Unmentioned
import GraphQuery.Proofs.Graph.Implementors
import GraphQuery.Proofs.Query.Hoisting
import GraphQuery.Proofs.Query.Offered
import GraphQuery.Proofs.Graph.Hoisting
import GraphQuery.Proofs.Batch.Fetches
import GraphQuery.Proofs.Batch.Requests
import GraphQuery.Proofs.Requirement.Linked
import GraphQuery.Proofs.Requirement.Unwrapped
import GraphQuery.Proofs.Schema.Valid
import GraphQuery.Proofs.Expr.Renaming
import GraphQuery.Proofs.Typed.Formed
import GraphQuery.Proofs.Typed.Hygiene
import GraphQuery.Proofs.Ty.Widening
import GraphQuery.Proofs.Typed.Evolution
import GraphQuery.Proofs.Graph.Views
import GraphQuery.Proofs.Schema.Names
import GraphQuery.Proofs.Expr.Scanning
import GraphQuery.Proofs.Expr.Layout
import GraphQuery.Proofs.Expr.Forms
import GraphQuery.Proofs.Expr.Pieces
import GraphQuery.Proofs.Decimal.Numerals
import GraphQuery.Proofs.Expr.Words
import GraphQuery.Proofs.Decimal.Rounding
import GraphQuery.Proofs.Decimal.Shortest
import GraphQuery.Proofs.Decimal.Notation
import GraphQuery.Proofs.Expr.Floats
import GraphQuery.Proofs.Expr.RoundTrip
import GraphQuery.Proofs.Batch.Stitching
import GraphQuery.Proofs.Value.Literal
import GraphQuery.Proofs.Requirement.WayBack
import GraphQuery.Proofs.Op.Entered
import GraphQuery.Proofs.Op.Frames
import GraphQuery.Proofs.Op.Denotation
import GraphQuery.Proofs.Schema.Denotation
import GraphQuery.Proofs.Batch.Traced
import GraphQuery.Proofs.Batch.Rejections
