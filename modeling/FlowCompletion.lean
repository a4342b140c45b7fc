import FlowCompletion.Binary64.Basic
import FlowCompletion.Binary64.Reading
import FlowCompletion.Binary64.Shortest
import FlowCompletion.Completion.Analysis
import FlowCompletion.Completion.Engine
import FlowCompletion.Completion.Error
import FlowCompletion.Completion.Report
import FlowCompletion.Completion.Request
import FlowCompletion.Files.Features
import FlowCompletion.Files.Path
import FlowCompletion.Files.Tree
import FlowCompletion.Flow.Assignment
import FlowCompletion.Flow.Basic
import FlowCompletion.Flow.Block
import FlowCompletion.Flow.Call
import FlowCompletion.Flow.Collection
import FlowCompletion.Flow.Definition
import FlowCompletion.Flow.Evaluation
import FlowCompletion.Flow.Parameters
import FlowCompletion.Inspection.Asked
import FlowCompletion.Inspection.Watch
import FlowCompletion.Json.Access
import FlowCompletion.Json.Basic
import FlowCompletion.Json.Decoding
import FlowCompletion.Json.Reading
import FlowCompletion.Json.Writing
import FlowCompletion.Live.Ancestry
import FlowCompletion.Live.Basic
import FlowCompletion.Live.Binding
import FlowCompletion.Live.Builtins
import FlowCompletion.Live.Construction
import FlowCompletion.Live.Methods
import FlowCompletion.Live.Text
import FlowCompletion.Names
import FlowCompletion.Resolution.Fit
import FlowCompletion.Resolution.Lookup
import FlowCompletion.Resolution.Overload
import FlowCompletion.Resolution.Reading
import FlowCompletion.Resolution.Unify
import FlowCompletion.Sampling
import FlowCompletion.Scope.Basic
import FlowCompletion.Scope.Flow
import FlowCompletion.Scope.Name
import FlowCompletion.Scope.Script
import FlowCompletion.Scope.Views
import FlowCompletion.Settings
import FlowCompletion.Signature.Database
import FlowCompletion.Signature.Declaration
import FlowCompletion.Signature.Decoding
import FlowCompletion.Signature.Encoding
import FlowCompletion.Signature.Loading
import FlowCompletion.Signature.Method
import FlowCompletion.Signature.Store
import FlowCompletion.Signature.TypeExpr
import FlowCompletion.Source.Build
import FlowCompletion.Source.Children
import FlowCompletion.Source.Decoding
import FlowCompletion.Source.Layout
import FlowCompletion.Source.Locals
import FlowCompletion.Source.Node
import FlowCompletion.Source.Parts
import FlowCompletion.Source.Word
import FlowCompletion.Table
import FlowCompletion.Text.Combining
import FlowCompletion.Text.Lines
import FlowCompletion.Text.Printable
import FlowCompletion.Text.Quoted
import FlowCompletion.Text.Ranges
import FlowCompletion.Text.Width
import FlowCompletion.Toml.Basic
import FlowCompletion.Toml.Reading
import FlowCompletion.Ty.Basic
import FlowCompletion.Ty.Equality
import FlowCompletion.Ty.Methods
import FlowCompletion.Ty.Sampled
import FlowCompletion.Ty.Text
import FlowCompletion.Ty.Union
import FlowCompletion.Visibility
import FlowCompletion.Proofs.Table
import FlowCompletion.Proofs.Names
import FlowCompletion.Proofs.Ty.Union
import FlowCompletion.Proofs.Ty.NormalForm
import FlowCompletion.Proofs.Ty.Flattening
import FlowCompletion.Proofs.Ty.Equality
import FlowCompletion.Proofs.Ty.Repetition
import FlowCompletion.Proofs.Scope.Moves
import FlowCompletion.Proofs.Scope.Merging
import FlowCompletion.Proofs.Scope.Branches
import FlowCompletion.Proofs.Scope.Jumps
import FlowCompletion.Proofs.Scope.Ownership
import FlowCompletion.Proofs.Scope.Declared
import FlowCompletion.Proofs.Source.Names
import FlowCompletion.Proofs.Flow.Composition
import FlowCompletion.Proofs.Flow.Laws
import FlowCompletion.Proofs.Flow.Evolution
import FlowCompletion.Proofs.Flow.Blocks
import FlowCompletion.Proofs.Scope.WriteBack
import FlowCompletion.Proofs.Scope.Unreachable
import FlowCompletion.Proofs.Signature.Substitution
import FlowCompletion.Proofs.Resolution.NormalForm
import FlowCompletion.Proofs.Scope.Routing
import FlowCompletion.Proofs.Scope.WellTyped
import FlowCompletion.Proofs.Flow.Outcomes
import FlowCompletion.Proofs.Flow.Soundness
import FlowCompletion.Proofs.Flow.NormalForm
import FlowCompletion.Proofs.Flow.LaterStatements
import FlowCompletion.Proofs.Scope.Growth
import FlowCompletion.Proofs.Scope.Unwritten
import FlowCompletion.Proofs.Flow.Unwritten
import FlowCompletion.Proofs.Resolution.Capture
import FlowCompletion.Proofs.Signature.Ancestors
import FlowCompletion.Proofs.Signature.Loading
import FlowCompletion.Proofs.Signature.Listing
import FlowCompletion.Proofs.Live.Ancestry
import FlowCompletion.Proofs.Live.Methods
import FlowCompletion.Proofs.Resolution.Offered
import FlowCompletion.Proofs.Resolution.Ancestry
import FlowCompletion.Proofs.Scope.Constants
import FlowCompletion.Proofs.Flow.Rescue
import FlowCompletion.Proofs.Flow.ImplicitParameters
import FlowCompletion.Proofs.Source.Children
import FlowCompletion.Proofs.Source.Layout
import FlowCompletion.Proofs.Source.Slices
import FlowCompletion.Proofs.Signature.Store
import FlowCompletion.Proofs.Json.Decoding
import FlowCompletion.Proofs.Signature.RoundTrip
import FlowCompletion.Proofs.Resolution.Alignment
import FlowCompletion.Proofs.Resolution.Candidates
import FlowCompletion.Proofs.Resolution.Unification
import FlowCompletion.Proofs.Completion.AssignedTargets
import FlowCompletion.Proofs.Sampling
import FlowCompletion.Proofs.Ty.Unsampled
import FlowCompletion.Proofs.Ty.Objects
import FlowCompletion.Proofs.Ty.Elements
import FlowCompletion.Proofs.Resolution.Inversion
import FlowCompletion.Proofs.Flow.Distribution
import FlowCompletion.Proofs.Flow.Loops
import FlowCompletion.Proofs.Flow.Locality
import FlowCompletion.Proofs.Flow.Depth
import FlowCompletion.Proofs.Source.Locating
import FlowCompletion.Proofs.Signature.Reachability
import FlowCompletion.Proofs.Live.Walk
import FlowCompletion.Proofs.Live.Cycles
import FlowCompletion.Proofs.Live.Visibility
import FlowCompletion.Proofs.Signature.Composition
import FlowCompletion.Proofs.Signature.Merging
import FlowCompletion.Proofs.Resolution.Intersection
import FlowCompletion.Proofs.Resolution.Spelling
import FlowCompletion.Proofs.Files.Paths
import FlowCompletion.Proofs.Files.Tree
import FlowCompletion.Proofs.Files.Completion
import FlowCompletion.Proofs.Scope.Order
