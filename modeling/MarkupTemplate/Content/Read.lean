/-
Reading a template.  Siblings are read piece by piece until the source ends or
the end tag of an open element begins; an element reads its content as
siblings with its own name among the open elements, and a CDATA section reads
its content as siblings up to its own end.  Since every piece takes characters
off the front, reading ends.
-/
import MarkupTemplate.Content.Piece

namespace MarkupTemplate

/-- Whether the content of an element ends here.  `opened` are the names of the
open elements, the innermost first. -/
def endsContent (opened : List String) (rest : List Char) : Bool :=
  rest.isEmpty || opened.any fun name => opensEndTag name rest

/-- Whether a run of siblings ends here.  In a CDATA section the end tags of the
open elements are text. -/
def endsSiblings (mode : TextMode) (opened : List String) (rest : List Char) :
    Bool :=
  if mode = .cdata then rest.isEmpty || "]]>".toList.isPrefixOf rest
  else endsContent opened rest

def Siblings.inCdata (start : Cursor) (inside : Siblings) : Siblings :=
  let closing := "]]>".toList
  if closing.isPrefixOf inside.next.rest then
    { inside with next := inside.next.advance closing }
  else
    let problem := Diagnostic.unterminatedCdata (start.spanTo inside.next)
    { inside with notes := inside.notes ++ [.problem problem] }

namespace StartTag

def notes (tag : StartTag) (start : Cursor) : List Note :=
  tag.problems.map .problem ++ [.startTag tag.name start.offset]

/-- An element that has no content. -/
def alone (tag : StartTag) (start : Cursor)
    (problems : List Diagnostic) : Siblings :=
  ⟨[tag.element [] tag.span],
    tag.notes start ++ problems.map .problem, tag.next⟩

/-- The end of an element whose content ends at a cursor: the cursor behind its
end tag, or a problem if its end tag is not there. -/
def close (tag : StartTag) (c : Cursor) : List Diagnostic × Cursor :=
  if opensEndTag tag.name c.rest then ([], ((endTag? c).map (·.2)).getD c)
  else ([.missingClosingTag tag.name tag.span], c)

def around (tag : StartTag) (start : Cursor) (inside : Siblings) : Siblings :=
  let (problems, next) := tag.close inside.next
  ⟨[tag.element inside.nodes (start.spanTo next)],
    tag.notes start ++ inside.notes ++ problems.map .problem, next⟩

theorem close_length_le (tag : StartTag) (c : Cursor) :
    (tag.close c).2.rest.length ≤ c.rest.length := by
  unfold close
  split
  · cases h : endTag? c with
    | none => simp
    | some found => exact Nat.le_of_lt (endTag?_length_lt h)
  · exact Nat.le_refl _

end StartTag

/-- The run of nodes that a piece becomes.  `content` reads the content of CDATA
sections and of the elements that may have some. -/
def Piece.complete (o : ReadOptions) (opened : List String) (c : Cursor)
    (content : TextMode → List String → Cursor → Siblings) : Piece → Siblings
  | whole item => item
  | cdata inside => .inCdata c (content .cdata opened inside)
  | start tag =>
      if tag.ending ≠ .opened then tag.alone c []
      else if o.maxDepth ≤ opened.length then
        tag.alone c [.nestingTooDeep tag.name o.maxDepth tag.span]
      else
        tag.around c
          (content (TextMode.ofTag tag.name) (tag.name :: opened) tag.next)

theorem Siblings.inCdata_length_le (start : Cursor) (inside : Siblings) :
    (inside.inCdata start).next.rest.length ≤ inside.next.rest.length := by
  unfold Siblings.inCdata
  simp only
  split
  · exact Cursor.advance_length_le _ _
  · exact Nat.le_refl _

theorem Piece.complete_length_lt {o : ReadOptions} {opened : List String}
    {c : Cursor} {content : TextMode → List String → Cursor → Siblings}
    {piece : Piece} (hpiece : piece.next.rest.length < c.rest.length)
    (hcontent : ∀ mode names d,
      (content mode names d).next.rest.length ≤ d.rest.length) :
    (piece.complete o opened c content).next.rest.length < c.rest.length := by
  cases piece with
  | whole item => exact hpiece
  | cdata inside =>
      exact Nat.lt_of_le_of_lt (Siblings.inCdata_length_le c _)
        (Nat.lt_of_le_of_lt (hcontent _ _ inside) hpiece)
  | start tag =>
      simp only [Piece.complete]
      split
      · exact hpiece
      · split
        · exact hpiece
        · exact Nat.lt_of_le_of_lt (tag.close_length_le _)
            (Nat.lt_of_le_of_lt (hcontent _ _ tag.next) hpiece)

theorem Piece.read_length_lt_of_not_endsSiblings (o : ReadOptions)
    {mode : TextMode} {opened : List String} {c : Cursor}
    (h : ¬ endsSiblings mode opened c.rest = true) :
    (Piece.read o mode c).next.rest.length < c.rest.length := by
  apply Piece.read_length_lt
  intro hnil
  simp [endsSiblings, endsContent, hnil] at h

/-- Read siblings.  The bound says that reading does not go back; content is
read where it begins behind the place of its element or section. -/
def siblingsWithin (o : ReadOptions) (mode : TextMode) (opened : List String)
    (c : Cursor) : { r : Siblings // r.next.rest.length ≤ c.rest.length } :=
  if hend : endsSiblings mode opened c.rest then ⟨⟨[], [], c⟩, Nat.le_refl _⟩
  else
    have hread := Piece.read_length_lt_of_not_endsSiblings o hend
    let content (inner : TextMode) (names : List String) (d : Cursor) :
        { r : Siblings // r.next.rest.length ≤ d.rest.length } :=
      if _ : d.rest.length < c.rest.length then siblingsWithin o inner names d
      else ⟨⟨[], [], d⟩, Nat.le_refl _⟩
    let item := (Piece.read o mode c).complete o opened c
      fun inner names d => (content inner names d).val
    have hitem : item.next.rest.length < c.rest.length :=
      Piece.complete_length_lt hread
        fun inner names d => (content inner names d).property
    let later := siblingsWithin o mode opened item.next
    ⟨item.followedBy later.val,
      Nat.le_trans later.property (Nat.le_of_lt hitem)⟩
termination_by c.rest.length

def siblings (o : ReadOptions) (mode : TextMode) (opened : List String)
    (c : Cursor) : Siblings :=
  (siblingsWithin o mode opened c).val

theorem siblings_of_endsSiblings {o : ReadOptions} {mode : TextMode}
    {opened : List String} {c : Cursor}
    (h : endsSiblings mode opened c.rest = true) :
    siblings o mode opened c = ⟨[], [], c⟩ := by
  rw [siblings, siblingsWithin, dif_pos h]

theorem Piece.complete_congr {o : ReadOptions} {opened : List String}
    {c : Cursor} {f g : TextMode → List String → Cursor → Siblings}
    {piece : Piece}
    (h : ∀ mode names, f mode names piece.next = g mode names piece.next) :
    piece.complete o opened c f = piece.complete o opened c g := by
  cases piece with
  | whole item => rfl
  | cdata inside =>
      simp only [Piece.next] at h
      simp only [Piece.complete, h]
  | start tag =>
      simp only [Piece.next] at h
      simp only [Piece.complete, h]

/-- Reading goes on piece by piece. -/
theorem siblings_of_not_endsSiblings {o : ReadOptions} {mode : TextMode}
    {opened : List String} {c : Cursor}
    (h : endsSiblings mode opened c.rest = false) :
    siblings o mode opened c =
      let item := (Piece.read o mode c).complete o opened c (siblings o)
      item.followedBy (siblings o mode opened item.next) := by
  have hend : ¬ endsSiblings mode opened c.rest = true := by simp [h]
  have hread := Piece.read_length_lt_of_not_endsSiblings o hend
  rw [siblings, siblingsWithin, dif_neg hend]
  simp only [siblings]
  rw [Piece.complete_congr (g := siblings o)]
  intro inner names
  rw [dif_pos hread]
  rfl

theorem siblings_length_le (o : ReadOptions) (mode : TextMode)
    (opened : List String) (c : Cursor) :
    (siblings o mode opened c).next.rest.length ≤ c.rest.length :=
  (siblingsWithin o mode opened c).property

structure Template where
  root : Node
  notes : List Note
  deriving Repr, BEq

namespace Template

def read (o : ReadOptions) (source : String) : Template :=
  let content := siblings o .data [] (Cursor.start source.toList)
  ⟨.root content.nodes ⟨0, byteLength source.toList⟩ none, content.notes⟩

/-- The problems found, in the order of the source. -/
def diagnostics (t : Template) : List Diagnostic :=
  t.notes.filterMap Note.diagnostic?

end Template

end MarkupTemplate
