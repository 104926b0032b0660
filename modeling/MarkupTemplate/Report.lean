/-
Reports: a diagnostic with the lines of the source that it is about, coloured
for a terminal.

A report takes the offsets of a span for numbers of characters.  In a source of
ASCII characters alone these are the byte offsets that a diagnostic has.
-/
import MarkupTemplate.Diagnostic
import MarkupTemplate.Source.Text

namespace MarkupTemplate.Report

/-! ## Colours -/

/-- A text in a colour; `code` selects it. -/
def coloured (code text : String) : String :=
  "\x1b[" ++ code ++ "m" ++ text ++ "\x1b[0m"

/-- What the report is about. -/
def marked (text : String) : String := coloured "33" text

/-- The frame and the line numbers. -/
def framed (text : String) : String := coloured "38;5;246" text

/-- The frame beside lines that are not of the source. -/
def faint (text : String) : String := coloured "38;5;240" text

/-- The source around what the report is about. -/
def plain (text : String) : String := coloured "38;5;249" text

def times (n : Nat) (text : String) : String :=
  String.join (List.replicate n text)

/-! ## The source -/

/-- How a character is shown at a column: the character in its place and how
many columns it takes up.  A tab goes on to the next multiple of four. -/
def shown (column : Nat) (c : Char) : Char × Nat :=
  if c == '\t' then (' ', (column / 4 + 1) * 4 - column)
  else if isBlank c then (' ', 1)
  else (c, displayWidth c)

/-- A line without the white space at its end. -/
def trimmed (text : List Char) : List Char :=
  (text.reverse.dropWhile isBlank).reverse

/-- The width of a column of a line; behind its end every column is one wide. -/
def columnWidth (text : List Char) (column : Nat) : Nat :=
  match text[column]? with
  | some c => (shown column c).2
  | none => 1

/-- What a report is about: the lines of the source, a stretch of characters,
and the text to put beside it. -/
structure Excerpt where
  lines : List Line
  start : Nat
  stop : Nat
  hint : String
  deriving Repr

namespace Excerpt

def covers (x : Excerpt) (offset : Nat) : Bool :=
  x.start ≤ offset && offset < x.stop

def last (x : Excerpt) : Nat := max (x.stop - 1) x.start

/-- The number of the line with a character, counted from zero.  The place
behind the source belongs to the last line. -/
def lineAt? (x : Excerpt) (offset : Nat) : Option Nat :=
  let size := x.lines.foldl (fun size line => size + line.text.length) 0
  let before := (x.lines.takeWhile (·.offset ≤ offset)).length
  if size < offset ∨ before = 0 then none else some (before - 1)

/-- A line of the source with the stretch marked in it. -/
def lineText (x : Excerpt) (line : Line) : String :=
  String.join <| (trimmed line.text).zipIdx.map fun (c, column) =>
    let (character, width) := shown column c
    let colour := if x.covers (line.offset + column) then marked else plain
    times (if character == ' ' then width else 1)
      (colour (String.singleton character))

end Excerpt

/-! ## The layout -/

/-- The left margin; `digits` is the width of the line numbers. -/
structure Margin where
  digits : Nat

namespace Margin

def number (m : Margin) (line : Nat) : String :=
  let text := toString (line + 1)
  " " ++ framed ("".pushn ' ' (m.digits - text.length) ++ text ++ " │") ++ " "

def blank (m : Margin) : String :=
  " " ++ faint ("".pushn ' ' (m.digits + 1) ++ "│") ++ " "

def dots (m : Margin) : String :=
  " " ++ faint ("".pushn ' ' (m.digits + 1) ++ "┆") ++ " "

def space (m : Margin) : String := "".pushn ' ' (m.digits + 2)

def bottom (m : Margin) : String := framed (times (m.digits + 2) "─" ++ "╯")

end Margin

/-- Fill a column: its first cell, and the same other cell up to its width. -/
def cells (width : Nat) (first other : String) : String :=
  if width = 0 then "" else first ++ times (width - 1) other

/-- The lines below a marked stretch on one line: the underline, and the text
on an arrow from its middle. -/
def underline (x : Excerpt) (m : Margin) (line : Line) : List String :=
  let text := trimmed line.text
  let middle := (x.start + x.stop) / 2 - line.offset
  let columns := List.range (x.stop - line.offset + 2)
  let under := columns.map fun column =>
    let width := columnWidth text column
    let covered := x.covers (line.offset + column)
    if column = middle then
      if covered then cells width (marked "┬") (marked "─")
      else cells width (marked "│") (marked " ")
    else if covered then cells width (marked "─") (marked "─")
    else cells width " " " "
  let arrow := columns.map fun column =>
    let width := columnWidth text column
    if column = middle then cells width (marked "╰") (marked "─")
    else if middle < column then cells width (marked "─") (marked "─")
    else cells width " " " "
  [m.blank ++ String.join under, m.blank ++ String.join arrow ++ " " ++ x.hint]

/-- A stretch within one line.  It is left out if it goes on behind the line. -/
def oneLine (x : Excerpt) (m : Margin) (index : Nat) (line : Line) :
    List String :=
  if line.offset + line.text.length < x.stop then [m.blank]
  else (m.number index ++ x.lineText line) :: underline x m line

/-- The mark in front of the first or last line of a longer stretch. -/
def corner (shape : String) : String :=
  marked shape ++ marked "─" ++ marked "▶" ++ marked " "

/-- The last line of a longer stretch, and the text on an arrow below it. -/
def lastLine (x : Excerpt) (m : Margin) (index : Nat) (line : Line) :
    List String :=
  let text := trimmed line.text
  let width := (List.range (line.text.length + 2)).foldl
    (fun width column => width + columnWidth text column) 0
  [m.number index ++ corner "├" ++ x.lineText line,
    m.blank ++ marked "│" ++ "   " ++ "".pushn ' ' width,
    m.blank ++ marked "╰" ++ marked "─" ++ times (2 + width) (marked "─") ++
      " " ++ x.hint]

/-- A stretch over several lines: its first and its last line, with dots for
those between them. -/
def severalLines (x : Excerpt) (m : Margin) (first final : Nat) : List String :=
  x.lines.zipIdx.flatMap fun (line, index) =>
    if index < first ∨ final < index then []
    else if index = first then [m.number index ++ corner "╭" ++ x.lineText line]
    else if line.offset ≤ x.last ∧ x.last < line.offset + line.text.length then
      lastLine x m index line
    else if index = first + 1 then [m.dots ++ marked "┆" ++ "   "]
    else []

/-- The part of a report that shows the source, if the stretch is in it. -/
def body (x : Excerpt) (filename : String) : List String :=
  match x.lineAt? x.start, x.lineAt? x.last with
  | some first, some final =>
      let m : Margin := ⟨(toString (final + 1)).length⟩
      let line := x.lines.getD first default
      let place := ":" ++ toString (first + 1) ++ ":" ++
        toString (x.start - line.offset + 1)
      [m.space ++ framed "╭" ++ framed "─" ++ framed "[" ++ filename ++
          place ++ framed "]",
        m.space ++ framed "│"]
        ++ (if first = final then oneLine x m first line
          else severalLines x m first final)
        ++ [m.bottom]
  | _, _ => []

end MarkupTemplate.Report

namespace MarkupTemplate

def Diagnostic.report (d : Diagnostic) (source filename : String) : String :=
  let x : Report.Excerpt :=
    ⟨linesOf source.toList, d.span.start, d.span.stop, d.hint⟩
  let title := Report.marked "Warning:" ++ " " ++ d.message
  String.join ((title :: Report.body x filename).map (· ++ "\n"))

end MarkupTemplate
