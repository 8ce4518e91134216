import Rulebook.Editor.Session
import Rulebook.Lint.Fixing
import Rulebook.Lint.Linter
import Rulebook.Proofs.Dsl.Distinct
import Rulebook.Proofs.Editor.Coherence
import Rulebook.Proofs.Editor.Refinement
import Rulebook.Proofs.Editor.Timeline
import Rulebook.Proofs.Node.Paths
import Rulebook.Proofs.RoundTrip.Drift
import Rulebook.Proofs.RoundTrip.Soundness
import Rulebook.Proofs.RoundTrip.Refusal
import Rulebook.RoundTrip.Suite
import Rulebook.Proofs.Json.Record
import Rulebook.Proofs.Rule.Codec
import Rulebook.Proofs.Node.Codec
import Rulebook.Proofs.Node.Rebuild
import Rulebook.Proofs.Editor.Reload
import Rulebook.Proofs.Lint.Agreement
import Rulebook.Proofs.Lint.Checks
import Rulebook.Proofs.Lint.Closing
import Rulebook.Proofs.Lint.Fixing
import Rulebook.Proofs.Dsl.Tracks
import Rulebook.Proofs.Dsl.Lexical
import Rulebook.Proofs.Dsl.Keywords
import Rulebook.Proofs.Dsl.Bridge
import Rulebook.Proofs.Rule.Renaming
import Rulebook.Proofs.Dsl.Arguments
import Rulebook.Proofs.Dsl.Negation
import Rulebook.Proofs.Dsl.Productions
import Rulebook.Proofs.Dsl.Parallel
import Rulebook.Proofs.Lint.Boundaries
import Rulebook.Proofs.Dsl.Padding
import Rulebook.Proofs.Dsl.Spacing
import Rulebook.Proofs.Dsl.Continued
import Rulebook.Proofs.Dsl.Precedence
import Rulebook.Proofs.Lint.Heads
import Rulebook.Proofs.Lint.Tokenized
import Rulebook.Proofs.Lint.Trimming
import Rulebook.Proofs.Dsl.Enclosed
import Rulebook.Proofs.Lint.Casing
import Rulebook.Proofs.Dsl.Skipped
import Rulebook.Proofs.Lint.Comments
import Rulebook.Proofs.Lint.Cancelling
import Rulebook.Proofs.Lint.Conditions
import Rulebook.Proofs.Lint.Groups
import Rulebook.Proofs.Rule.Names
import Rulebook.Proofs.Dsl.Produced
import Rulebook.Proofs.Editor.Import
import Rulebook.Proofs.Dsl.Counted
import Rulebook.Proofs.Dsl.Marked
import Rulebook.Proofs.Node.Inverse
import Rulebook.Proofs.Node.Traversal
import Rulebook.Proofs.Node.Walk
import Rulebook.Proofs.Editor.Prediction
import Rulebook.Proofs.Editor.UndoList
import Rulebook.Proofs.Lint.Selection
import Rulebook.Proofs.RoundTrip.Stages
import Rulebook.Proofs.Editor.Paragraphs
import Rulebook.Proofs.Node.Descendants
import Rulebook.Proofs.Lint.Positions
import Rulebook.Proofs.Lint.Lookups
