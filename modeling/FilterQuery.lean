import FilterQuery.Main
import FilterQuery.Proofs.Pattern
import FilterQuery.Proofs.ValueKind
import FilterQuery.Proofs.Leak
import FilterQuery.Proofs.Literal
import FilterQuery.Proofs.Restore
import FilterQuery.Proofs.Structure
import FilterQuery.Proofs.WellFormed
import FilterQuery.Proofs.Collision
import FilterQuery.Proofs.Depth
import FilterQuery.Proofs.Passage.Number
import FilterQuery.Proofs.Precedence
import FilterQuery.Proofs.Rename
import FilterQuery.Proofs.Isolation
import FilterQuery.Proofs.Padding
import FilterQuery.Proofs.Connectives
import FilterQuery.Proofs.NormalForm
import FilterQuery.Proofs.Split
import FilterQuery.Proofs.Termination
import FilterQuery.Proofs.Clock
import FilterQuery.Proofs.Rendering
import FilterQuery.Proofs.Rounding
import FilterQuery.Proofs.Json.Number
import FilterQuery.Proofs.Batch
import FilterQuery.Proofs.Arguments
import FilterQuery.Proofs.Outcome
import FilterQuery.Proofs.Ceiling
import FilterQuery.Proofs.DoubleQuoted
import FilterQuery.Proofs.Number.Reading
import FilterQuery.Proofs.FixedDigits
import FilterQuery.Proofs.Instant.Calendar
import FilterQuery.Proofs.Instant.Offset
import FilterQuery.Proofs.Instant.Spelling
import FilterQuery.Proofs.Instant.RoundTrip
import FilterQuery.Proofs.Instant.Order
import FilterQuery.Proofs.Chain
import FilterQuery.Proofs.Dispatch
import FilterQuery.Proofs.Json.Canonical
import FilterQuery.Proofs.FieldName
