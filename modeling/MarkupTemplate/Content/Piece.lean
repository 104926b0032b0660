/-
The smallest stretches of content: comments, CDATA sections, interpolations,
texts and single tags.  What begins at a place is decided by the characters
ahead and by the text mode.
-/
import MarkupTemplate.Content.TextMode
import MarkupTemplate.Source.Text
import MarkupTemplate.Tag.Read

namespace MarkupTemplate

/-- What happens to white space between tags. -/
inductive Whitespace where
  | preserve
  | condense
  deriving Repr, DecidableEq, Inhabited

structure ReadOptions where
  whitespace : Whitespace := .preserve
  /-- An element with this many elements around it keeps no content. -/
  maxDepth : Nat := 256
  deriving Repr, DecidableEq, Inhabited

/-- What the reader notes on its way, in the order of the source. -/
inductive Note where
  | startTag (name : String) (offset : Nat)
  | problem (diagnostic : Diagnostic)
  deriving Repr, DecidableEq

def Note.diagnostic? : Note → Option Diagnostic
  | startTag .. => none
  | problem diagnostic => some diagnostic

/-- Nodes read one after another, what was noted, and where reading goes on. -/
structure Siblings where
  nodes : List Node
  notes : List Note
  next : Cursor
  deriving Repr, BEq

namespace Siblings

def followedBy (first later : Siblings) : Siblings :=
  ⟨first.nodes ++ later.nodes, first.notes ++ later.notes, later.next⟩

def comment (c : Cursor) : Siblings :=
  let e := Enclosed.read "<!--".toList "-->".toList c
  let span := c.spanTo e.next
  ⟨[.comment (String.ofList e.body) span none],
    if e.closed then [] else [.problem (.unterminatedComment span)], e.next⟩

def interpolation (c : Cursor) : Siblings :=
  let e := Enclosed.read ['{', '{'] ['}', '}'] c
  let span := c.spanTo e.next
  ⟨[.interpolation (String.ofList e.body) span none],
    if e.closed then [] else [.problem (.unterminatedInterpolation span)],
    e.next⟩

def endsText (mode : TextMode) (cs : List Char) : Bool :=
  if mode = .cdata then "]]>".toList.isPrefixOf cs
  else ['<'].isPrefixOf cs
    || (mode.allowsInterpolation && ['{', '{'].isPrefixOf cs)

/-- The characters of a text: the first one whatever it is, and then all up to
the next place where a text ends. -/
def textRun (mode : TextMode) : List Char → List Char
  | [] => []
  | c :: cs => c :: takeUntil (endsText mode) cs

def text (o : ReadOptions) (mode : TextMode) (c : Cursor) : Siblings :=
  let run := textRun mode c.rest
  let next := c.advance run
  let kept :=
    if mode = .data ∧ o.whitespace = .condense then condense run else some run
  ⟨kept.toList.map fun content =>
      .text (String.ofList content) (c.spanTo next) none,
    [], next⟩

def unmatched (name : String) (c next : Cursor) : Siblings :=
  ⟨[], [.problem (.unmatchedClosingTag name (c.spanTo next))], next⟩

/-- An interpolation if one begins here, and a text otherwise. -/
def inline (o : ReadOptions) (mode : TextMode) (c : Cursor) : Siblings :=
  if mode.allowsInterpolation && ['{', '{'].isPrefixOf c.rest then
    interpolation c
  else text o mode c

end Siblings

/-- What begins at a place: a run of nodes that is complete in itself, a CDATA
section whose content begins at `inside`, or the start tag of an element. -/
inductive Piece where
  | whole (item : Siblings)
  | cdata (inside : Cursor)
  | start (tag : StartTag)
  deriving Repr, BEq

namespace Piece

def next : Piece → Cursor
  | whole item => item.next
  | cdata inside => inside
  | start tag => tag.next

def read (o : ReadOptions) (mode : TextMode) (c : Cursor) : Piece :=
  if mode.allowsMarkup then
    if "<!--".toList.isPrefixOf c.rest then whole (.comment c)
    else if "<![CDATA[".toList.isPrefixOf c.rest then
      cdata (c.advance "<![CDATA[".toList)
    else
      match endTag? c with
      | some (name, behind) => whole (.unmatched name c behind)
      | none =>
          match StartTag.read? c with
          | some tag => start tag
          | none => whole (.inline o mode c)
  else whole (.inline o mode c)

end Piece

theorem Siblings.text_length_lt (o : ReadOptions) (mode : TextMode) {c : Cursor}
    (hrest : c.rest ≠ []) :
    (Siblings.text o mode c).next.rest.length < c.rest.length := by
  apply Cursor.advance_length_lt hrest
  cases hcs : c.rest with
  | nil => exact absurd hcs hrest
  | cons _ _ => simp [Siblings.textRun]

theorem Siblings.comment_length_lt {c : Cursor} (hrest : c.rest ≠ []) :
    (Siblings.comment c).next.rest.length < c.rest.length :=
  Enclosed.read_length_lt "-->".toList hrest (by simp)

theorem Siblings.interpolation_length_lt {c : Cursor} (hrest : c.rest ≠ []) :
    (Siblings.interpolation c).next.rest.length < c.rest.length :=
  Enclosed.read_length_lt ['}', '}'] hrest (by simp)

theorem Siblings.inline_length_lt (o : ReadOptions)
    (mode : TextMode) {c : Cursor} (hrest : c.rest ≠ []) :
    (Siblings.inline o mode c).next.rest.length < c.rest.length := by
  unfold Siblings.inline
  split
  · exact Siblings.interpolation_length_lt hrest
  · exact Siblings.text_length_lt o mode hrest

theorem Piece.read_length_lt (o : ReadOptions) (mode : TextMode) {c : Cursor}
    (hrest : c.rest ≠ []) :
    (Piece.read o mode c).next.rest.length < c.rest.length := by
  unfold Piece.read
  split
  · split
    · exact Siblings.comment_length_lt hrest
    · split
      · exact Cursor.advance_length_lt hrest (by simp)
      · split
        · next hend => exact endTag?_length_lt hend
        · split
          · next hstart => exact StartTag.read?_length_lt hstart
          · exact Siblings.inline_length_lt o mode hrest
  · exact Siblings.inline_length_lt o mode hrest

end MarkupTemplate
