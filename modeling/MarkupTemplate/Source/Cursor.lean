/-
Places in the source text.  Offsets count the bytes of the UTF-8 form, while
the text itself is read as a list of characters, so a cursor keeps both: how
many bytes lie behind it and which characters lie ahead.
-/

namespace MarkupTemplate

/-- A stretch of the source, from the first byte up to but not including the
last offset. -/
structure Span where
  start : Nat
  stop : Nat
  deriving Repr, DecidableEq, Inhabited

def byteLength : List Char → Nat
  | [] => 0
  | c :: cs => c.utf8Size + byteLength cs

@[simp] theorem byteLength_nil : byteLength [] = 0 := rfl

@[simp] theorem byteLength_cons (c : Char) (cs : List Char) :
    byteLength (c :: cs) = c.utf8Size + byteLength cs := rfl

@[simp] theorem byteLength_append (cs ds : List Char) :
    byteLength (cs ++ ds) = byteLength cs + byteLength ds := by
  induction cs with
  | nil => simp
  | cons c cs ih => simp [ih, Nat.add_assoc]

/-- A place in the source: the bytes behind it and the characters ahead. -/
structure Cursor where
  offset : Nat
  rest : List Char
  deriving Repr, DecidableEq, Inhabited

namespace Cursor

def start (source : List Char) : Cursor := ⟨0, source⟩

/-- The cursor behind `taken`, which stands at the front of the rest. -/
def advance (c : Cursor) (taken : List Char) : Cursor :=
  ⟨c.offset + byteLength taken, c.rest.drop taken.length⟩

def toEnd (c : Cursor) : Cursor := ⟨c.offset + byteLength c.rest, []⟩

/-- The stretch from this cursor to a later one. -/
def spanTo (c later : Cursor) : Span := ⟨c.offset, later.offset⟩

@[simp] theorem advance_rest (c : Cursor) (taken : List Char) :
    (c.advance taken).rest = c.rest.drop taken.length := rfl

@[simp] theorem advance_offset (c : Cursor) (taken : List Char) :
    (c.advance taken).offset = c.offset + byteLength taken := rfl

@[simp] theorem toEnd_rest (c : Cursor) : c.toEnd.rest = [] := rfl

theorem advance_length_le (c : Cursor) (taken : List Char) :
    (c.advance taken).rest.length ≤ c.rest.length := by
  simp

theorem advance_length_lt {c : Cursor} {taken : List Char}
    (hrest : c.rest ≠ []) (htaken : taken ≠ []) :
    (c.advance taken).rest.length < c.rest.length := by
  have hr := List.length_pos_iff.mpr hrest
  have ht := List.length_pos_iff.mpr htaken
  simp only [advance_rest, List.length_drop]
  omega

end Cursor

/-- The text in front of the first place where `stops` holds of what is
ahead, or the whole text if it holds nowhere. -/
def takeUntil (stops : List Char → Bool) : List Char → List Char
  | [] => []
  | c :: cs => if stops (c :: cs) then [] else c :: takeUntil stops cs

/-- A stretch between two markers, such as a comment: what stands between
them, whether the closing marker was found, and where reading goes on. -/
structure Enclosed where
  body : List Char
  closed : Bool
  next : Cursor

/-- Read a stretch that begins with `opening`.  It ends with the first
`closing`, or with the source if there is none. -/
def Enclosed.read (opening closing : List Char) (c : Cursor) : Enclosed :=
  let inside := c.advance opening
  let body := takeUntil closing.isPrefixOf inside.rest
  let after := inside.advance body
  if closing.isPrefixOf after.rest then ⟨body, true, after.advance closing⟩
  else ⟨body, false, after⟩

theorem Enclosed.read_length_lt {opening : List Char} (closing : List Char)
    {c : Cursor} (hrest : c.rest ≠ []) (hopening : opening ≠ []) :
    (Enclosed.read opening closing c).next.rest.length < c.rest.length := by
  have hinside := Cursor.advance_length_lt hrest hopening
  simp only [Enclosed.read]
  split
  · exact Nat.lt_of_le_of_lt (Cursor.advance_length_le _ _)
      (Nat.lt_of_le_of_lt (Cursor.advance_length_le _ _) hinside)
  · exact Nat.lt_of_le_of_lt (Cursor.advance_length_le _ _) hinside

end MarkupTemplate
