import LoopNest.Axes
import LoopNest.DType
import LoopNest.Ident
import LoopNest.Diagnostic
import LoopNest.Double.Layout
import LoopNest.Double.Reader
import LoopNest.Json.Reader
import LoopNest.Digest
import LoopNest.Literal
import LoopNest.Token.Lexer
import LoopNest.Source.Parser
import LoopNest.OrderedMap
import LoopNest.Function.Registry
import LoopNest.Code.Listing
import LoopNest.Code.Json
import LoopNest.Graph
import LoopNest.Stamp.Basic
import LoopNest.Stamp.Stamping
import LoopNest.Stamp.Listing
import LoopNest.Carrier
import LoopNest.Lowering
import LoopNest.Validity
import LoopNest.Inlining
import LoopNest.Session
import LoopNest.Main
import LoopNest.Proofs.Code.Block
import LoopNest.Proofs.Code.Evaluation
import LoopNest.Proofs.Fallible
import LoopNest.Proofs.Carriers
import LoopNest.Proofs.Agreement
import LoopNest.Proofs.AxisVectors
import LoopNest.Proofs.Stamp.Consistency
import LoopNest.Proofs.Analysis.Entries
import LoopNest.Proofs.Stamp.Module
import LoopNest.Proofs.Lowering.Emitted
import LoopNest.Proofs.Lowering.Trace
import LoopNest.Proofs.Lowering.Nest
import LoopNest.Proofs.Code.Names
import LoopNest.Proofs.Lowering.Numbering
import LoopNest.Proofs.Lowering.Stack
import LoopNest.Proofs.Semantics.Cells
import LoopNest.Proofs.Semantics.Meaning
import LoopNest.Proofs.Semantics.Execution
import LoopNest.Proofs.Semantics.Emission
import LoopNest.Proofs.Semantics.Module
import LoopNest.Proofs.Lowering.Module
import LoopNest.Proofs.Code.Renaming
import LoopNest.Proofs.Lowering.Relocation
import LoopNest.Proofs.Lowering.Trail
import LoopNest.Proofs.Code.Scoping
import LoopNest.Proofs.Lowering.Scoping
import LoopNest.Proofs.Inlining.Pruning
import LoopNest.Proofs.Inlining.Payload
import LoopNest.Proofs.Inlining.Splice
import LoopNest.Proofs.Inlining.Site
import LoopNest.Proofs.Inlining.Names
import LoopNest.Proofs.Inlining.Module
import LoopNest.Proofs.Pipeline
import LoopNest.Proofs.Inlining.Preservation
import LoopNest.Proofs.Semantics.Denotation
import LoopNest.Proofs.Lowering.Preservation
import LoopNest.Proofs.Code.Visibility
import LoopNest.Proofs.Code.Validity
import LoopNest.Proofs.Validity
import LoopNest.Proofs.Code.Following
import LoopNest.Proofs.Lowering.Indexing
import LoopNest.Proofs.Lowering.Followed
import LoopNest.Proofs.Succession
import LoopNest.Proofs.OrderedMaps
import LoopNest.Proofs.Expressions
import LoopNest.Proofs.Stamp.Typing
import LoopNest.Proofs.Stamp.Repetition
import LoopNest.Proofs.Stamp.Elaboration
import LoopNest.Proofs.Lowering.Environment
import LoopNest.Proofs.Inlining.Order
import LoopNest.Proofs.Compilation
import LoopNest.Proofs.Order
import LoopNest.Proofs.Extension
import LoopNest.Proofs.Lowering.Outcome
import LoopNest.Proofs.WellTyped
import LoopNest.Proofs.History
import LoopNest.Proofs.Code.Acceptance
import LoopNest.Proofs.Code.Definedness
import LoopNest.Proofs.Json.Numbers
import LoopNest.Proofs.Lowering.Literals
import LoopNest.Proofs.Code.Interchange
import LoopNest.Proofs.Interchange
import LoopNest.Proofs.Source.Grammar
import LoopNest.Proofs.Token.Rendering
import LoopNest.Proofs.Source.Parsing
import LoopNest.Proofs.Source.Printing
import LoopNest.Proofs.Source.Recognition
import LoopNest.Proofs.Source.Derivation
import LoopNest.Proofs.Source.Unambiguity
import LoopNest.Proofs.Function.Interchange
import LoopNest.Proofs.Function.Canonical
import LoopNest.Proofs.Lowering.Lookups
import LoopNest.Proofs.Lowering.Law
import LoopNest.Proofs.Lowering.Soundness
import LoopNest.Proofs.Lowering.Resolution
import LoopNest.Proofs.Lowering.AnyStamps
import LoopNest.Proofs.LoopContext
import LoopNest.Proofs.Inlining.Idempotence
import LoopNest.Proofs.Anchors
import LoopNest.Proofs.Analysis.Rules
import LoopNest.Proofs.Analysis.Finding
import LoopNest.Proofs.Analysis.Exactness
import LoopNest.Proofs.Analysis.Grounding
import LoopNest.Proofs.Stamp.Mirror
import LoopNest.Proofs.Stamp.Outcome
import LoopNest.Proofs.Code.WellFormed
import LoopNest.Proofs.Function.Loading
import LoopNest.Proofs.Effects
import LoopNest.Proofs.Replacement
import LoopNest.Proofs.Respelling
import LoopNest.Proofs.Token.Cutting
import LoopNest.Proofs.Token.Patterns
import LoopNest.Proofs.Token.Partition
import LoopNest.Proofs.Source.Nodes
import LoopNest.Proofs.Source.Spans
import LoopNest.Proofs.Token.Spacing
import LoopNest.Proofs.Source.Futures
import LoopNest.Proofs.Source.Languages
import LoopNest.Proofs.Source.SyntaxErrors
import LoopNest.Proofs.Inlining.DeadLoads
