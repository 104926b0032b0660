/-
Start tags and end tags.

A start tag that breaks off is kept with what was read of it.  An attribute
whose quoted value never ends is dropped with everything up to the next `>`.
-/
import MarkupTemplate.Tag.Scan
import MarkupTemplate.Node
import MarkupTemplate.Diagnostic

namespace MarkupTemplate

inductive TagEnd where
  /-- With `>`: content follows. -/
  | opened
  /-- With `/>`. -/
  | selfClosing
  /-- Not at all: the source ends, or another tag begins. -/
  | cut
  deriving Repr, DecidableEq, Inhabited

/-- What follows the name in a start tag. -/
structure TagRest where
  attributes : List Attribute
  ending : TagEnd
  problems : List Diagnostic
  next : Cursor
  deriving Repr, DecidableEq

namespace TagRest

/-- Put attributes in front. -/
def after (attributes : List Attribute) (r : TagRest) : TagRest :=
  { r with attributes := attributes ++ r.attributes }

@[simp] theorem after_next (attributes : List Attribute) (r : TagRest) :
    (r.after attributes).next = r.next := rfl

end TagRest

/-- An attribute name that no equals sign follows, with the empty value. -/
def Attribute.ofName (name : Lexeme String) : Attribute :=
  ⟨name.token, "", name.span⟩

/-- An attribute name with the value behind its equals sign. -/
def Attribute.ofValue (name : Lexeme String) (value : String)
    (span : Span) : Attribute :=
  ⟨name.token, value, ⟨name.span.start, span.stop⟩⟩

/-- Go on behind a quote that is never closed.  The tag ends with the next
`>`, or with the source if there is none. -/
def TagRest.afterOpenQuote (name : Lexeme String) (quote : Span)
    (c : Cursor) : TagRest :=
  let problem :=
    Diagnostic.missingAttributeQuote name.token ⟨quote.start, c.toEnd.offset⟩
  let skipped := c.rest.takeWhile (· != '>')
  let here := c.advance skipped
  if here.rest.isEmpty then ⟨[], .cut, [problem], here⟩
  else
    let ending :=
      if skipped.getLast? = some '/' then TagEnd.selfClosing else .opened
    ⟨[], ending, [problem], here.advance ['>']⟩

/-- Read a start tag from behind its name, or from behind an attribute.
`pending` is an attribute name for which an equals sign may still follow. -/
def TagRest.read (pending : Option (Lexeme String)) (c : Cursor) : TagRest :=
  let waiting := pending.toList.map Attribute.ofName
  match _ : c.tagToken? with
  | none => ⟨waiting, .cut, [], c.toEnd⟩
  | some (⟨.name name, span⟩, next) =>
      (TagRest.read (some ⟨name, span⟩) next).after waiting
  | some (⟨.equals, span⟩, next) =>
      let name := pending.getD ⟨"", span⟩
      match _ : next.valueToken? with
      | none => ⟨[Attribute.ofName name], .cut, [], next.toEnd⟩
      | some (⟨.quoted value, valueSpan⟩, behind) =>
          (TagRest.read none behind).after
            [Attribute.ofValue name value valueSpan]
      | some (⟨.bare value, valueSpan⟩, behind) =>
          (TagRest.read none behind).after
            [Attribute.ofValue name value valueSpan]
      | some (⟨.unterminated, quote⟩, behind) =>
          TagRest.afterOpenQuote name quote behind
      | some (⟨.close, _⟩, behind) =>
          ⟨[Attribute.ofName name], .opened, [], behind⟩
  | some (⟨.close, _⟩, next) => ⟨waiting, .opened, [], next⟩
  | some (⟨.selfClose, _⟩, next) => ⟨waiting, .selfClosing, [], next⟩
  | some (⟨.startOpen _, _⟩, _) => ⟨waiting, .cut, [], c.skipSpace⟩
  | some (⟨.endOpen _, _⟩, _) => ⟨waiting, .cut, [], c.skipSpace⟩
  | some (⟨.stray, _⟩, next) => TagRest.read pending next
termination_by c.rest.length
decreasing_by
  · exact Cursor.tagToken?_length_lt (by assumption)
  · exact Nat.lt_trans (Cursor.valueToken?_length_lt (by assumption))
      (Cursor.tagToken?_length_lt (by assumption))
  · exact Nat.lt_trans (Cursor.valueToken?_length_lt (by assumption))
      (Cursor.tagToken?_length_lt (by assumption))
  · exact Cursor.tagToken?_length_lt (by assumption)

structure StartTag where
  name : String
  attributes : List Attribute
  ending : TagEnd
  span : Span
  problems : List Diagnostic
  next : Cursor
  deriving Repr, DecidableEq

def StartTag.read? (c : Cursor) : Option StartTag :=
  match TagToken.first? c.rest with
  | some (.startOpen name, taken) =>
      let r := TagRest.read none (c.advance taken)
      let span := c.spanTo r.next
      let broken :=
        if r.ending = .cut ∧ r.problems = [] then
          [Diagnostic.unterminatedStartTag name span]
        else []
      some ⟨name, r.attributes, r.ending, span, r.problems ++ broken, r.next⟩
  | _ => none

/-- The element of a start tag, with content and the stretch that it covers. -/
def StartTag.element (tag : StartTag) (children : List Node)
    (span : Span) : Node :=
  .element tag.name tag.attributes children
    (tag.ending == .selfClosing) span none

/-- The cursor behind an end tag, from behind its name.  Whatever stands in
the tag is passed over, but another tag is not entered. -/
def endTagRest (c : Cursor) : Cursor :=
  match _ : c.tagToken? with
  | none => c
  | some (⟨.close, _⟩, next) => next
  | some (⟨.selfClose, _⟩, next) => next
  | some (⟨.startOpen _, _⟩, _) => c
  | some (⟨.endOpen _, _⟩, _) => c
  | some (⟨.name _, _⟩, next) => endTagRest next
  | some (⟨.equals, _⟩, next) => endTagRest next
  | some (⟨.stray, _⟩, next) => endTagRest next
termination_by c.rest.length
decreasing_by
  · exact Cursor.tagToken?_length_lt (by assumption)
  · exact Cursor.tagToken?_length_lt (by assumption)
  · exact Cursor.tagToken?_length_lt (by assumption)

/-- The name of the end tag at a cursor, and the cursor behind the tag. -/
def endTag? (c : Cursor) : Option (String × Cursor) :=
  match TagToken.first? c.rest with
  | some (.endOpen name, taken) => some (name, endTagRest (c.advance taken))
  | _ => none

/-- The text behind `name`, if `text` begins with it.  The case of ASCII
letters does not matter. -/
def afterName? : (name text : List Char) → Option (List Char)
  | [], cs => some cs
  | _ :: _, [] => none
  | n :: ns, c :: cs => if n.toLower = c.toLower then afterName? ns cs else none

/-- Whether an end tag of that name begins here: the name is followed by a
blank, `/`, `>` or the end of the source. -/
def opensEndTag (name : String) : List Char → Bool
  | '<' :: '/' :: cs =>
      match afterName? name.toList cs with
      | none => false
      | some [] => true
      | some (c :: _) => !isTagNameChar c
  | _ => false

theorem TagRest.afterOpenQuote_length_le (name : Lexeme String) (quote : Span)
    (c : Cursor) :
    (TagRest.afterOpenQuote name quote c).next.rest.length ≤ c.rest.length := by
  simp only [TagRest.afterOpenQuote]
  split
  · exact Cursor.advance_length_le _ _
  · exact Nat.le_trans (Cursor.advance_length_le _ _)
      (Cursor.advance_length_le _ _)

theorem TagRest.read_length_le (pending : Option (Lexeme String)) (c : Cursor) :
    (TagRest.read pending c).next.rest.length ≤ c.rest.length := by
  fun_induction TagRest.read pending c with
  | case1 => simp
  | case2 _ _ _ _ _ _ h ih =>
      exact Nat.le_trans ih (Nat.le_of_lt (Cursor.tagToken?_length_lt h))
  | case3 => simp
  | case4 _ _ _ _ h _ _ _ _ hv ih =>
      have := Cursor.tagToken?_length_lt h
      have := Cursor.valueToken?_length_lt hv
      simp only [TagRest.after_next]
      omega
  | case5 _ _ _ _ h _ _ _ _ hv ih =>
      have := Cursor.tagToken?_length_lt h
      have := Cursor.valueToken?_length_lt hv
      simp only [TagRest.after_next]
      omega
  | case6 _ _ _ _ h name quote behind hv =>
      have := Cursor.tagToken?_length_lt h
      have := Cursor.valueToken?_length_lt hv
      have := TagRest.afterOpenQuote_length_le name quote behind
      omega
  | case7 _ _ _ _ h _ _ _ hv =>
      have := Cursor.tagToken?_length_lt h
      have := Cursor.valueToken?_length_lt hv
      simp only
      omega
  | case8 _ _ _ _ _ h => exact Nat.le_of_lt (Cursor.tagToken?_length_lt h)
  | case9 _ _ _ _ _ h => exact Nat.le_of_lt (Cursor.tagToken?_length_lt h)
  | case10 => exact Cursor.advance_length_le _ _
  | case11 => exact Cursor.advance_length_le _ _
  | case12 _ _ _ _ h ih =>
      exact Nat.le_trans ih (Nat.le_of_lt (Cursor.tagToken?_length_lt h))

theorem StartTag.read?_length_lt {c : Cursor} {tag : StartTag}
    (h : StartTag.read? c = some tag) :
    tag.next.rest.length < c.rest.length := by
  unfold StartTag.read? at h
  split at h
  · next name taken hread =>
      obtain ⟨hrest, htaken⟩ := TagToken.first?_ne_nil hread
      rw [← Option.some.inj h]
      exact Nat.lt_of_le_of_lt (TagRest.read_length_le _ _)
        (Cursor.advance_length_lt hrest htaken)
  · contradiction

theorem endTagRest_length_le (c : Cursor) :
    (endTagRest c).rest.length ≤ c.rest.length := by
  fun_induction endTagRest c with
  | case1 => exact Nat.le_refl _
  | case2 _ _ _ h => exact Nat.le_of_lt (Cursor.tagToken?_length_lt h)
  | case3 _ _ _ h => exact Nat.le_of_lt (Cursor.tagToken?_length_lt h)
  | case4 => exact Nat.le_refl _
  | case5 => exact Nat.le_refl _
  | case6 _ _ _ _ h ih =>
      exact Nat.le_trans ih (Nat.le_of_lt (Cursor.tagToken?_length_lt h))
  | case7 _ _ _ h ih =>
      exact Nat.le_trans ih (Nat.le_of_lt (Cursor.tagToken?_length_lt h))
  | case8 _ _ _ h ih =>
      exact Nat.le_trans ih (Nat.le_of_lt (Cursor.tagToken?_length_lt h))

theorem endTag?_length_lt {c next : Cursor} {name : String}
    (h : endTag? c = some (name, next)) : next.rest.length < c.rest.length := by
  unfold endTag? at h
  split at h
  · next name taken hread =>
      obtain ⟨hrest, htaken⟩ := TagToken.first?_ne_nil hread
      simp only [Option.some.injEq, Prod.mk.injEq] at h
      rw [← h.2]
      exact Nat.lt_of_le_of_lt (endTagRest_length_le _)
        (Cursor.advance_length_lt hrest htaken)
  · contradiction

end MarkupTemplate
