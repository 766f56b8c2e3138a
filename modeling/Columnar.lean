import Columnar.Binary.Narrowing
import Columnar.Binary.Rounding
import Columnar.Bitmap.Reduction
import Columnar.Checked
import Columnar.Chunk.Reading
import Columnar.Column
import Columnar.Compaction
import Columnar.Context
import Columnar.DataType
import Columnar.Decimal.Layout
import Columnar.Engine
import Columnar.Error
import Columnar.Kernel.Basic
import Columnar.Kernel.Buffer
import Columnar.Literal
import Columnar.Plan.Execution
import Columnar.Plan.NormalForm
import Columnar.Plan.Optimization
import Columnar.Predicate.Evaluation
import Columnar.Predicate.Restriction
import Columnar.Predicate.Sharing
import Columnar.Predicate.Traversal
import Columnar.Query
import Columnar.Scalar
import Columnar.Schema
import Columnar.Selection
import Columnar.Session
import Columnar.Settings
import Columnar.Table.Basic
import Columnar.Proofs.Binary.Grid
import Columnar.Proofs.Binary.Narrowing
import Columnar.Proofs.Binary.Nearest
import Columnar.Proofs.Binary.Rounding
import Columnar.Proofs.Binary.TwoSteps
import Columnar.Proofs.Binary.Value
import Columnar.Proofs.Binary.Widening
import Columnar.Proofs.Bitmap.Conjunction
import Columnar.Proofs.Bitmap.Count
import Columnar.Proofs.Bitmap.Reduction
import Columnar.Proofs.Bitmap.Registers
import Columnar.Proofs.Bitmap.View
import Columnar.Proofs.Chunk.Construction
import Columnar.Proofs.Chunk.Reading
import Columnar.Proofs.Chunk.Sound
import Columnar.Proofs.Chunk.Strings
import Columnar.Proofs.Chunk.Text
import Columnar.Proofs.Column.Padding
import Columnar.Proofs.Column.ReadBack
import Columnar.Proofs.Column.Rows
import Columnar.Proofs.Column.Validity
import Columnar.Proofs.Compaction.Builder
import Columnar.Proofs.Compaction.Chunk
import Columnar.Proofs.Compaction.Column
import Columnar.Proofs.Compaction.Pack
import Columnar.Proofs.Compaction.Padding
import Columnar.Proofs.Context.Failures
import Columnar.Proofs.Context.Fitting
import Columnar.Proofs.Context.Layout
import Columnar.Proofs.Context.Materialize
import Columnar.Proofs.Context.Padding
import Columnar.Proofs.Context.Project
import Columnar.Proofs.Context.Records
import Columnar.Proofs.Context.Reprojection
import Columnar.Proofs.Context.Simulation
import Columnar.Proofs.Engine.Agreement
import Columnar.Proofs.Engine.Checked
import Columnar.Proofs.Kernel.Buffer
import Columnar.Proofs.Kernel.Comparison
import Columnar.Proofs.Kernel.Compilation
import Columnar.Proofs.Kernel.Effect
import Columnar.Proofs.Kernel.Extent
import Columnar.Proofs.Kernel.Integers
import Columnar.Proofs.Kernel.Interleaving
import Columnar.Proofs.Kernel.Isolation
import Columnar.Proofs.Kernel.Lowering
import Columnar.Proofs.Kernel.Names
import Columnar.Proofs.Kernel.Restriction
import Columnar.Proofs.Kernel.Run
import Columnar.Proofs.Kernel.Sequence
import Columnar.Proofs.Kernel.Singles
import Columnar.Proofs.Kernel.Span
import Columnar.Proofs.Plan.Merging
import Columnar.Proofs.Plan.NormalForm
import Columnar.Proofs.Plan.Padding
import Columnar.Proofs.Plan.Pending
import Columnar.Proofs.Predicate.Columns
import Columnar.Proofs.Predicate.Decomposition
import Columnar.Proofs.Predicate.Evaluation
import Columnar.Proofs.Predicate.Restriction
import Columnar.Proofs.Query.Failures
import Columnar.Proofs.Query.Meaning
import Columnar.Proofs.Query.Pushdown
import Columnar.Proofs.Query.Recorded
import Columnar.Proofs.Result
import Columnar.Proofs.Schema.Projection
import Columnar.Proofs.Selection.Filter
import Columnar.Proofs.Selection.Padding
import Columnar.Proofs.Selection.Refusal
import Columnar.Proofs.Selection.Screening
import Columnar.Proofs.Selection.Strategies
import Columnar.Proofs.Selection.Values
import Columnar.Proofs.Session.Lifecycle
import Columnar.Proofs.Session.Linking
import Columnar.Proofs.Session.Ownership
import Columnar.Proofs.Session.Records
import Columnar.Proofs.Session.Symbols
import Columnar.Proofs.Session.Workspace
import Columnar.Proofs.Table.Construction
import Columnar.Proofs.Table.Lookup
import Columnar.Proofs.Table.Records
