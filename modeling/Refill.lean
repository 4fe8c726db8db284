import Refill.Command.Run
import Refill.Document
import Refill.Files.Access
import Refill.Glob
import Refill.Main
import Refill.PathExpansion
import Refill.Settings
import Refill.Toml.Document
import Refill.Proofs.Cursor.Passage
import Refill.Proofs.Cursor.Search
import Refill.Proofs.Text.Trim
import Refill.Proofs.Construct.CodeSpan
import Refill.Proofs.Construct.BreakTag
import Refill.Proofs.Construct.Link
import Refill.Proofs.Construct.LinkPlaces
import Refill.Proofs.Construct.SpanPlaces
import Refill.Proofs.Packing.Layout
import Refill.Proofs.Packing.Greedy
import Refill.Proofs.Packing.Fewest
import Refill.Proofs.Packing.Locality
import Refill.Proofs.Packing.Spacing
import Refill.Proofs.Packing.BlankLines
import Refill.Proofs.Packing.Injective
import Refill.Proofs.Packing.Adjacency
import Refill.Proofs.Tiling.BreakTags
import Refill.Proofs.Respacing.Cut
import Refill.Proofs.Respacing.Merge
import Refill.Proofs.Respacing.Reread
import Refill.Proofs.Respacing.Stable
import Refill.Proofs.Respacing.Stages
import Refill.Proofs.Rewrapping.Constructs
import Refill.Proofs.Rewrapping.Idempotence
import Refill.Proofs.Document.Slice
import Refill.Proofs.Document.Splice
import Refill.Proofs.Document.Breaks
import Refill.Proofs.Document.Again
import Refill.Proofs.Document.Whole
import Refill.Proofs.Files.Face
import Refill.Proofs.Files.Walk
import Refill.Proofs.Files.Written
import Refill.Proofs.Command.Revision
import Refill.Proofs.Command.Modes
import Refill.Proofs.Command.Failure
import Refill.Proofs.Toml.Quoted
import Refill.Proofs.Toml.Literal
import Refill.Proofs.Toml.Statement
import Refill.Proofs.Settings.Saved
import Refill.Proofs.Construct.Progress
import Refill.Proofs.Cursor.Simulation
import Refill.Proofs.Files.Collected
