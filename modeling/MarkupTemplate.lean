import MarkupTemplate.Main
import MarkupTemplate.Rewrite.Recipe
import MarkupTemplate.Tag.Scan
import MarkupTemplate.Proofs.RoundTrip
import MarkupTemplate.Proofs.NormalForm
import MarkupTemplate.Proofs.Coverage
import MarkupTemplate.Proofs.Unwinding
import MarkupTemplate.Proofs.Rendering
import MarkupTemplate.Proofs.Unambiguous
import MarkupTemplate.Proofs.Attachment
import MarkupTemplate.Proofs.Compiled
import MarkupTemplate.Proofs.TagEnding
import MarkupTemplate.Proofs.Closing
import MarkupTemplate.Proofs.Condensing
import MarkupTemplate.Proofs.CondensedForm
import MarkupTemplate.Proofs.Progress
import MarkupTemplate.Proofs.Fusion
import MarkupTemplate.Proofs.Walker
import MarkupTemplate.Proofs.Bearings
import MarkupTemplate.Proofs.BottomUp
import MarkupTemplate.Proofs.Bracketing
import MarkupTemplate.Proofs.Nesting
import MarkupTemplate.Proofs.Unterminated
import MarkupTemplate.Proofs.RawText
import MarkupTemplate.Proofs.Faithful
import MarkupTemplate.Proofs.Spelling
import MarkupTemplate.Proofs.Interchange
import MarkupTemplate.Proofs.Tiling
import MarkupTemplate.Proofs.Failing
import MarkupTemplate.Proofs.Indentation
import MarkupTemplate.Proofs.ReportPlace
import MarkupTemplate.Proofs.Strictness
import MarkupTemplate.Proofs.LineStarts
import MarkupTemplate.Proofs.Outline
import MarkupTemplate.Proofs.Recognition
import MarkupTemplate.Proofs.TomlDocument
import MarkupTemplate.Proofs.SettingsOverlay
