/-
What the reader of a template recovered from.  Reading never fails: every
problem is noted beside the best tree that could be made.
-/
import MarkupTemplate.Source.Cursor

namespace MarkupTemplate

/-- A problem in a template and the stretch of the source that shows it. -/
inductive Diagnostic where
  /-- An end tag whose name no open element has. -/
  | unmatchedClosingTag (tag : String) (span : Span)
  | unterminatedComment (span : Span)
  | unterminatedCdata (span : Span)
  | unterminatedInterpolation (span : Span)
  /-- An element whose content ended without its end tag. -/
  | missingClosingTag (tag : String) (span : Span)
  /-- A quoted value without its closing quote. -/
  | missingAttributeQuote (name : String) (span : Span)
  /-- A start tag that breaks off. -/
  | unterminatedStartTag (tag : String) (span : Span)
  /-- An element opened at the nesting limit; it is kept without content. -/
  | nestingTooDeep (tag : String) (limit : Nat) (span : Span)
  deriving Repr, DecidableEq

namespace Diagnostic

def span : Diagnostic → Span
  | unmatchedClosingTag _ span => span
  | unterminatedComment span => span
  | unterminatedCdata span => span
  | unterminatedInterpolation span => span
  | missingClosingTag _ span => span
  | missingAttributeQuote _ span => span
  | unterminatedStartTag _ span => span
  | nestingTooDeep _ _ span => span

def message : Diagnostic → String
  | unmatchedClosingTag tag _ => "unmatched closing tag `</" ++ tag ++ ">`"
  | unterminatedComment _ => "unterminated comment"
  | unterminatedCdata _ => "unterminated CDATA section"
  | unterminatedInterpolation _ => "unterminated interpolation"
  | missingClosingTag tag _ => "missing closing tag for `<" ++ tag ++ ">`"
  | missingAttributeQuote name _ =>
      "missing closing quote for attribute `" ++ name ++ "`"
  | unterminatedStartTag tag _ => "unterminated start tag `<" ++ tag ++ "`"
  | nestingTooDeep tag limit _ =>
      "`<" ++ tag ++ ">` is nested deeper than " ++
        toString limit ++ " elements"

/-- The short text that a report puts under the marked source. -/
def hint : Diagnostic → String
  | unmatchedClosingTag .. => "no open element to close"
  | unterminatedComment _ => "expected `-->`"
  | unterminatedCdata _ => "expected `]]>`"
  | unterminatedInterpolation _ => "expected `\x7d\x7d`"
  | missingClosingTag tag _ => "`<" ++ tag ++ ">` opened here"
  | missingAttributeQuote .. => "quote opened here"
  | unterminatedStartTag .. => "expected `>` or `/>`"
  | nestingTooDeep .. => "content parsed as siblings"

end Diagnostic

end MarkupTemplate
