import Pathwise.ConstantTable
import Pathwise.Coverage
import Pathwise.MethodGraph.Builder
import Pathwise.Options.Toml
import Pathwise.Proofs.Layout
import Pathwise.Proofs.Prune
import Pathwise.Proofs.Reference
import Pathwise.Proofs.Congruence
import Pathwise.Proofs.Guards
import Pathwise.Proofs.Effects
import Pathwise.Proofs.Divergence
import Pathwise.Proofs.Exclusion
import Pathwise.Proofs.RoundTrip
import Pathwise.Proofs.Runs
import Pathwise.Proofs.Renumbering.Pointer
import Pathwise.Proofs.Renumbering.Correspondence
import Pathwise.Proofs.Scalar.Reading
import Pathwise.Proofs.Scalar.StraightLine
import Pathwise.Proofs.Search
import Pathwise.Proofs.Scoping.Term
import Pathwise.Proofs.Scoping.Instruction
import Pathwise.Proofs.Scoping.Form
import Pathwise.Proofs.Scoping.Path
import Pathwise.Proofs.Invariant
import Pathwise.Proofs.Scoping.Group
import Pathwise.Proofs.Resolution.Request
import Pathwise.Proofs.Coverable.Form
import Pathwise.Proofs.Resolution.Closed
import Pathwise.Proofs.Coverable.Run
import Pathwise.Proofs.Coverable.Engine
import Pathwise.Proofs.Components
import Pathwise.Proofs.Declarations.Groups
import Pathwise.Proofs.Declarations.Lines
import Pathwise.Proofs.Declarations.Order
import Pathwise.Proofs.Freshness
import Pathwise.Proofs.Limit
import Pathwise.Proofs.Unfolding
import Pathwise.Proofs.Exploration
import Pathwise.Proofs.Mentions
import Pathwise.Proofs.Resolution.Budget
import Pathwise.Proofs.Resolution.Needs
import Pathwise.Proofs.Resolution.Closure
import Pathwise.Proofs.Resolution.Independence
import Pathwise.Proofs.Renumbering.Origin
import Pathwise.Proofs.Renumbering.Twins
import Pathwise.Proofs.Renumbering.Form
import Pathwise.Proofs.Renumbering.Render
import Pathwise.Proofs.Renumbering.Cover
import Pathwise.Proofs.TypeSymbol
import Pathwise.Proofs.Tags
import Pathwise.Proofs.TypeText
import Pathwise.Proofs.Wording.Path
import Pathwise.Proofs.Readback.Shape
import Pathwise.Proofs.Dominance
import Pathwise.Proofs.Failure
import Pathwise.Proofs.Segmentation.Fault
import Pathwise.Proofs.Edges
import Pathwise.Proofs.Segmentation.Block
import Pathwise.Proofs.Segmentation.Repetition
import Pathwise.Proofs.Segmentation.Form
import Pathwise.Proofs.Segmentation.Scope
import Pathwise.Proofs.Partition
import Pathwise.Proofs.Traversal
import Pathwise.Proofs.BlockOrder
import Pathwise.Proofs.Enumeration
import Pathwise.Proofs.Accessor
import Pathwise.Proofs.Record
import Pathwise.Proofs.Overload
import Pathwise.Proofs.Typing.Signature
import Pathwise.Proofs.Typing.Operation
import Pathwise.Proofs.Readback.Literal
import Pathwise.Proofs.Renaming
import Pathwise.Proofs.Provenance.Assignment
import Pathwise.Proofs.Provenance.Origin
import Pathwise.Proofs.Provenance.Ancestry
import Pathwise.Proofs.Inlining.Machine
import Pathwise.Proofs.Inlining.Bound
import Pathwise.Proofs.Stability
import Pathwise.Proofs.Resolution.Work
import Pathwise.Proofs.Resolution.Termination
