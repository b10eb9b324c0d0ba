import Conform.OrderedMap
import Conform.Number
import Conform.Decimal.Shortest
import Conform.Decimal.Layout
import Conform.Json.Basic
import Conform.Json.Printer
import Conform.Json.Parser
import Conform.Calendar.Date
import Conform.Calendar.DateTime
import Conform.Calendar.Rfc3339
import Conform.Text.Unprintable
import Conform.Text.Quoted
import Conform.Deferred
import Conform.Value.Accessor
import Conform.Value.Basic
import Conform.Value.Heap
import Conform.Value.Reach
import Conform.Value.Copy
import Conform.Value.Equality
import Conform.Value.ToJson
import Conform.Value.Inspect
import Conform.Definition.Error
import Conform.Definition.Keyword
import Conform.Definition.Basic
import Conform.Definition.OfJson
import Conform.Definition.Grammar
import Conform.Definition.Host
import Conform.Definition.Resolve
import Conform.Definition.Lower
import Conform.Definition.Inspect
import Conform.Validation.Violation
import Conform.Validation.Context
import Conform.Validation.Session
import Conform.Validation.Keywords
import Conform.Validation.Engine
import Conform.Validation.Validator
import Conform.JsonSchema.Project
import Conform.Proofs.Value.Heap
import Conform.Proofs.Value.Alike
import Conform.Proofs.Value.Copy
import Conform.Proofs.Validation.Restoration
import Conform.Proofs.Value.Reach
import Conform.Proofs.Value.Equality
import Conform.Proofs.Validation.Comparison
import Conform.Proofs.Validation.Congruence
import Conform.Proofs.Definition.Met
import Conform.Proofs.Validation.Invariant
import Conform.Proofs.Validation.Discipline
import Conform.Proofs.Validation.Frame
import Conform.Proofs.Validation.Origin
import Conform.Proofs.Validation.Nesting
import Conform.Proofs.Validation.Renaming
import Conform.Proofs.Validation.Rehearsal
import Conform.Proofs.Definition.Conforms
import Conform.Proofs.Validation.Decision
import Conform.Proofs.Validation.Conformance
import Conform.Proofs.Validation.Postcondition
import Conform.Proofs.Validation.Regime
import Conform.Proofs.Validation.Evolution
import Conform.Proofs.Validation.Reporting
import Conform.Proofs.Validation.Arrival
import Conform.Proofs.Validation.Sparing
import Conform.Proofs.Validation.Course
import Conform.Proofs.Validation.Abreast
import Conform.Proofs.Validation.Assertion
import Conform.Proofs.Definition.Readable
import Conform.Proofs.Value.Draft
import Conform.Proofs.Value.Denotation
import Conform.Proofs.Definition.Layout
import Conform.Proofs.Validation.Verdict
import Conform.Proofs.Definition.Described
import Conform.Proofs.Definition.Parts
import Conform.Proofs.Definition.Drafted
import Conform.Proofs.Validation.Unfolding
import Conform.Proofs.Validation.Grammar
import Conform.Proofs.Validation.ReadOnly
import Conform.Proofs.Validation.SelfCheck
import Conform.Proofs.Validation.Apart
import Conform.Proofs.Value.Tree
import Conform.Proofs.Value.Planted
import Conform.Proofs.Value.Growth
import Conform.Proofs.Validation.Progress
import Conform.Proofs.Validation.Composition
import Conform.Proofs.Value.Entries
import Conform.Proofs.Value.Insertion
import Conform.Proofs.Value.Whole
import Conform.Proofs.Calendar.Days
import Conform.Proofs.Calendar.Timestamps
import Conform.Proofs.Value.Shown
import Conform.Proofs.Value.Reread
import Conform.Proofs.Value.Memoised
import Conform.Proofs.Value.Duplicate
import Conform.Proofs.Validation.Lineage
import Conform.Proofs.Value.Printed
import Conform.Proofs.Definition.Provenance
import Conform.Proofs.Definition.RoundTrip
import Conform.Proofs.Validation.Totality
import Conform.Proofs.Validation.Vouched
import Conform.Proofs.Validation.Repetition
import Conform.Proofs.Validation.Recurrence
import Conform.Proofs.Validation.Idempotence
import Conform.Proofs.Definition.Recast
import Conform.Proofs.Validation.Interruption
import Conform.Proofs.Validation.Recasting
import Conform.Proofs.Validation.Deferral
import Conform.Proofs.JsonSchema.Validity
import Conform.Proofs.JsonSchema.Agreement
import Conform.Proofs.JsonSchema.Projection
import Conform.Proofs.JsonSchema.Reference
import Conform.Proofs.JsonSchema.Soundness
import Conform.Proofs.JsonSchema.Exactness
import Conform.Proofs.Validation.Acyclicity
import Conform.Proofs.Validation.Fillings
import Conform.Proofs.Value.Branching
import Conform.Proofs.Validation.Aliasing
import Conform.Proofs.Definition.Reordering
import Conform.Proofs.Definition.Strictness
import Conform.Proofs.Validation.Policy
import Conform.Proofs.Validation.Moments
import Conform.Proofs.Validation.LeftRecursion
