import ApiContract.Builtin
import ApiContract.Main
import ApiContract.Proofs.Bind
import ApiContract.Proofs.Comparison.Alike
import ApiContract.Proofs.Comparison.Assignment
import ApiContract.Proofs.Comparison.Below
import ApiContract.Proofs.Comparison.Claims
import ApiContract.Proofs.Comparison.Covering
import ApiContract.Proofs.Comparison.Descending
import ApiContract.Proofs.Comparison.Failure
import ApiContract.Proofs.Comparison.FirstFit
import ApiContract.Proofs.Comparison.Ignoring
import ApiContract.Proofs.Comparison.Loosening
import ApiContract.Proofs.Comparison.Mismatch
import ApiContract.Proofs.Comparison.Outcome
import ApiContract.Proofs.Comparison.Returned
import ApiContract.Proofs.Comparison.Surplus
import ApiContract.Proofs.Comparison.Verbatim
import ApiContract.Proofs.Comparison.Wording
import ApiContract.Proofs.Document.Cursor
import ApiContract.Proofs.Document.Defences
import ApiContract.Proofs.Document.Discipline
import ApiContract.Proofs.Document.Grammar
import ApiContract.Proofs.Document.Heading
import ApiContract.Proofs.Document.Layout
import ApiContract.Proofs.Document.Parsing
import ApiContract.Proofs.Document.Places
import ApiContract.Proofs.Document.Prose
import ApiContract.Proofs.Document.Regular
import ApiContract.Proofs.Document.Rendering
import ApiContract.Proofs.Document.RoundTrip
import ApiContract.Proofs.Document.Sections
import ApiContract.Proofs.Document.Setups
import ApiContract.Proofs.Document.Statuses
import ApiContract.Proofs.Document.Unplaced
import ApiContract.Proofs.Expression.Access
import ApiContract.Proofs.Expression.Agreement
import ApiContract.Proofs.Expression.Alike
import ApiContract.Proofs.Expression.Calls
import ApiContract.Proofs.Expression.Chains
import ApiContract.Proofs.Expression.Completeness
import ApiContract.Proofs.Expression.Cursor
import ApiContract.Proofs.Expression.Data
import ApiContract.Proofs.Expression.Depth
import ApiContract.Proofs.Expression.Following
import ApiContract.Proofs.Expression.Grammar
import ApiContract.Proofs.Expression.Lexing
import ApiContract.Proofs.Expression.Names
import ApiContract.Proofs.Expression.Progress
import ApiContract.Proofs.Expression.Readers
import ApiContract.Proofs.Expression.Soundness
import ApiContract.Proofs.Expression.Spacing
import ApiContract.Proofs.Expression.Uniqueness
import ApiContract.Proofs.Fault.Window
import ApiContract.Proofs.Fields
import ApiContract.Proofs.Forall2
import ApiContract.Proofs.Json.Reading
import ApiContract.Proofs.Json.Scalars
import ApiContract.Proofs.Number.Conversion
import ApiContract.Proofs.Number.Decimal
import ApiContract.Proofs.Number.Equality
import ApiContract.Proofs.Number.Numeral
import ApiContract.Proofs.Number.Rounding
import ApiContract.Proofs.Path.Chain
import ApiContract.Proofs.Path.Padding
import ApiContract.Proofs.Path.Spelling
import ApiContract.Proofs.Path.Writing
import ApiContract.Proofs.Pattern.Basic
import ApiContract.Proofs.Rendering.Colours
import ApiContract.Proofs.Rendering.Pieces
import ApiContract.Proofs.Rendering.Terminal
import ApiContract.Proofs.Run.Contents
import ApiContract.Proofs.Run.Course
import ApiContract.Proofs.Run.Defaults
import ApiContract.Proofs.Run.Effects
import ApiContract.Proofs.Run.Find
import ApiContract.Proofs.Run.Fixtures
import ApiContract.Proofs.Run.Insertion
import ApiContract.Proofs.Run.Previous
import ApiContract.Proofs.Run.Received
import ApiContract.Proofs.Run.Recording
import ApiContract.Proofs.Run.Steps
import ApiContract.Proofs.Run.Views
import ApiContract.Proofs.Source.Lines
import ApiContract.Proofs.Source.Places
import ApiContract.Proofs.Source.Tiling
import ApiContract.Proofs.Source.Unplaced
import ApiContract.Proofs.Template.Apart
import ApiContract.Proofs.Template.Captures
import ApiContract.Proofs.Template.Composition
import ApiContract.Proofs.Template.Descent
import ApiContract.Proofs.Template.Faults
import ApiContract.Proofs.Template.Gathering
import ApiContract.Proofs.Template.Groups
import ApiContract.Proofs.Template.Layout
import ApiContract.Proofs.Template.Locating
import ApiContract.Proofs.Template.Marks
import ApiContract.Proofs.Template.Mentions
import ApiContract.Proofs.Template.Mixins
import ApiContract.Proofs.Template.Overflow
import ApiContract.Proofs.Template.Parts
import ApiContract.Proofs.Template.Patterns
import ApiContract.Proofs.Template.Places
import ApiContract.Proofs.Template.Reading
import ApiContract.Proofs.Template.Removals
import ApiContract.Proofs.Template.RoundTrip
import ApiContract.Proofs.Template.Rows
import ApiContract.Proofs.Template.Termination
import ApiContract.Proofs.Template.Unplaced
import ApiContract.Proofs.Template.WellFormed
import ApiContract.Proofs.Text.Ends
import ApiContract.Proofs.Text.Words
import ApiContract.Proofs.Throughout
import ApiContract.Proofs.Value.Addition
import ApiContract.Proofs.Value.Data
import ApiContract.Proofs.Value.Editing
import ApiContract.Proofs.Value.Highlight
import ApiContract.Proofs.Value.Obstacles
import ApiContract.Proofs.Value.Owners
import ApiContract.Proofs.Value.Parts
import ApiContract.Proofs.Value.Places
import ApiContract.Proofs.Value.Printing
import ApiContract.Proofs.Value.Removal
import ApiContract.Proofs.Value.Undisturbed
import ApiContract.Proofs.Value.Without
import ApiContract.Rehearsal.Service
import ApiContract.Run.Execution
import ApiContract.Run.Explanation
