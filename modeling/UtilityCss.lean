import UtilityCss.ClassName.SettingsFile
import UtilityCss.Template.Occurrence
import UtilityCss.Stylesheet.Edit
import UtilityCss.Stylesheet.Traversal
import UtilityCss.Upgrade.Pipeline
import UtilityCss.Proofs.Stylesheet.Links
import UtilityCss.Proofs.Stylesheet.Tree
import UtilityCss.Proofs.Stylesheet.Building
import UtilityCss.Proofs.Stylesheet.Scanning
import UtilityCss.Proofs.Stylesheet.Reading
import UtilityCss.Proofs.Stylesheet.Legible
import UtilityCss.Proofs.Stylesheet.Lossless
import UtilityCss.Proofs.Upgrade.Changes
import UtilityCss.Proofs.Upgrade.ImplicitRuns
import UtilityCss.Proofs.Upgrade.Preservation
import UtilityCss.Proofs.Stylesheet.Lines
import UtilityCss.Proofs.Upgrade.Explicit
import UtilityCss.Proofs.Upgrade.Idempotence
import UtilityCss.Proofs.Text.Cutting
import UtilityCss.Proofs.Text.Segmenting
import UtilityCss.Proofs.ClassName.Underscore
import UtilityCss.Proofs.ClassName.Verbatim
import UtilityCss.Proofs.ClassName.Variants
import UtilityCss.Proofs.ClassName.Utilities
import UtilityCss.Proofs.ClassName.Canonical
import UtilityCss.Proofs.Text.Respacing
import UtilityCss.Proofs.Stylesheet.Restating
import UtilityCss.Proofs.Stylesheet.Indentation
import UtilityCss.Proofs.Upgrade.Correspondence
import UtilityCss.Proofs.Upgrade.Literals
import UtilityCss.Proofs.ClassName.Registered
import UtilityCss.Proofs.ClassName.CanonicalText
import UtilityCss.Proofs.Stylesheet.Linked
import UtilityCss.Proofs.Stylesheet.Moves
import UtilityCss.Proofs.Upgrade.Forests
import UtilityCss.Proofs.Stylesheet.Chunks
import UtilityCss.Proofs.Upgrade.Locality
import UtilityCss.Proofs.Text.Offsets
import UtilityCss.Proofs.Text.Distinct
import UtilityCss.Proofs.Template.Tokens
import UtilityCss.Proofs.Template.Occurrences
import UtilityCss.Proofs.Stylesheet.Spacing
import UtilityCss.Proofs.Stylesheet.Places
import UtilityCss.Proofs.Stylesheet.Concatenation
import UtilityCss.Proofs.Upgrade.Relayering
import UtilityCss.Proofs.Stylesheet.FinalSemicolon
import UtilityCss.Proofs.Stylesheet.Moving
import UtilityCss.Proofs.Stylesheet.Tracing
import UtilityCss.Proofs.Stylesheet.Tidy
import UtilityCss.Proofs.Stylesheet.Shape
import UtilityCss.Proofs.Stylesheet.Splitting
import UtilityCss.Proofs.Text.Bytes
import UtilityCss.Proofs.Stylesheet.Tokenwise
import UtilityCss.Proofs.Stylesheet.ByteScan
import UtilityCss.Proofs.Stylesheet.ByteReading
import UtilityCss.Proofs.Stylesheet.Culprits
import UtilityCss.Proofs.Stylesheet.Parameters
import UtilityCss.Proofs.Stylesheet.Enclosing
import UtilityCss.Proofs.ClassName.Arbitrary
import UtilityCss.Proofs.ClassName.Configured
import UtilityCss.Proofs.Template.Locality
import UtilityCss.Proofs.Template.Partition
import UtilityCss.Proofs.ClassName.RootPlaces
import UtilityCss.Proofs.ClassName.Importance
import UtilityCss.Proofs.Text.Positions
import UtilityCss.Proofs.Text.ByteSegments
