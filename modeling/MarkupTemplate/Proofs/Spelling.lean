/-
Start tags in any spelling.  An attribute may be a name alone, or have a value
in quotes of either kind or in none, with blanks around its equals sign.  The
reader finds what was spelled, each attribute at its place.  A name alone waits
until the next token shows that no equals sign follows.
-/
import MarkupTemplate.Proofs.TagMarkup

namespace MarkupTemplate

/-- How an attribute goes on behind its name: not at all, or with an equals sign
and a value, which stands in quotes or is bare. -/
inductive ValueSpelling where
  | missing
  | quoted (before after : List Char) (quote : Char) (value : List Char)
      (hbefore : before.all isTagSpace = true := by decide)
      (hafter : after.all isTagSpace = true := by decide)
      (hquote : quote = '"' ∨ quote = '\'' := by decide)
      (hvalue : quote ∉ value := by decide)
  | bare (before after value : List Char)
      (hbefore : before.all isTagSpace = true := by decide)
      (hafter : after.all isTagSpace = true := by decide)
      (hvalue : isBareValue value = true := by decide)

namespace ValueSpelling

def markup : ValueSpelling → List Char
  | missing => []
  | quoted before after quote value _ _ _ _ =>
      before ++ (['='] ++ (after ++ (quote :: value ++ [quote])))
  | bare before after value _ _ _ => before ++ (['='] ++ (after ++ value))

/-- The value itself, which is empty where there is none. -/
def value : ValueSpelling → List Char
  | missing => []
  | quoted _ _ _ value _ _ _ _ => value
  | bare _ _ value _ _ _ => value

def isBare : ValueSpelling → Bool
  | bare .. => true
  | _ => false

end ValueSpelling

/-- An attribute as it may be written in a start tag, behind a gap. -/
structure AttributeSpelling where
  gap : List Char
  name : List Char
  value : ValueSpelling
  gap_ne : gap ≠ [] := by decide
  gap_blank : gap.all isTagSpace = true := by decide
  name_legal : isAttributeName name = true := by decide

namespace AttributeSpelling

def markup (a : AttributeSpelling) : List Char :=
  a.gap ++ (a.name ++ a.value.markup)

/-- The attribute that is spelled at a cursor.  Its stretch goes from its name
to the end of its value. -/
def placed (a : AttributeSpelling) (c : Cursor) : Attribute :=
  ⟨String.ofList a.name, String.ofList a.value.value,
    (c.advance a.gap).spanTo (c.advance a.markup)⟩

def placedAll : Cursor → List AttributeSpelling → List Attribute
  | _, [] => []
  | c, a :: attributes =>
      a.placed c :: placedAll (c.advance a.markup) attributes

end AttributeSpelling

/-- A start tag as it may be written.  A gap keeps the slash at its end from a
bare value. -/
structure TagSpelling where
  name : List Char
  attributes : List AttributeSpelling
  gap : List Char
  selfClosing : Bool
  name_legal : isTagName name = true := by decide
  gap_blank : gap.all isTagSpace = true := by decide
  gap_ne : selfClosing = true →
    attributes.getLast?.any (·.value.isBare) = true → gap ≠ [] := by decide

def TagSpelling.markup (t : TagSpelling) : List Char :=
  '<' :: t.name ++ (t.attributes.flatMap AttributeSpelling.markup ++
    tagClose t.gap t.selfClosing)

theorem not_isTagNameChar_of_isTagSpace {x : Char} (h : isTagSpace x = true) :
    isTagNameChar x = false := by
  simp [isTagNameChar, h]

theorem not_isAttributeNameChar_of_not_isTagNameChar {x : Char}
    (h : isTagNameChar x = false) : isAttributeNameChar x = false := by
  simp [isAttributeNameChar, h]

/-- In front stands a blank or what comes behind the blanks. -/
theorem forall_head?_blanks {p : Char → Prop} {blanks rest : List Char}
    (hblanks : blanks.all isTagSpace = true)
    (hspace : ∀ x, isTagSpace x = true → p x) (hrest : ∀ x ∈ rest.head?, p x) :
    ∀ x ∈ (blanks ++ rest).head?, p x := by
  cases blanks with
  | nil => exact hrest
  | cons y blanks =>
      rw [List.all_cons, Bool.and_eq_true] at hblanks
      simpa using hspace y hblanks.1

theorem endsName_of_head? {cs : List Char}
    (h : ∀ x ∈ cs.head?, isTagNameChar x = false) : endsName cs = true := by
  cases cs with
  | nil => rfl
  | cons x cs => simpa [endsName] using h x rfl

theorem TagRest.after_after (first later : List Attribute) (r : TagRest) :
    (r.after later).after first = r.after (first ++ later) := by
  simp [TagRest.after]

/-- An attribute with a value is read from its name to the end of its value. -/
theorem TagRest.read_nameValue {c : Cursor}
    {gap name before after written rest : List Char}
    (hgap : gap.all isTagSpace = true) (hname : isAttributeName name = true)
    (hbefore : before.all isTagSpace = true)
    (hrest : c.rest = gap ++
      (name ++ (before ++ (['='] ++ (after ++ (written ++ rest))))))
    {token : ValueToken} {value : String}
    (htoken : token = .quoted value ∨ token = .bare value)
    (hvalue : ∀ {d : Cursor}, d.rest = after ++ (written ++ rest) →
      let next := d.advance (after ++ written)
      d.valueToken? = some (⟨token, (d.advance after).spanTo next⟩, next))
    (pending : Option (Lexeme String)) :
    let next :=
      c.advance (gap ++ (name ++ (before ++ (['='] ++ (after ++ written)))))
    TagRest.read pending c =
      (TagRest.read none next).after (pending.toList.map Attribute.ofName ++
      [⟨String.ofList name, value, (c.advance gap).spanTo next⟩]) := by
  have hends : ∀ x ∈ (before ++ (['='] ++ (after ++ (written ++ rest)))).head?,
      isAttributeNameChar x = false := by
    refine forall_head?_blanks hbefore (fun x hx => ?_)
      (by simp [isAttributeNameChar])
    exact not_isAttributeNameChar_of_not_isTagNameChar
      (not_isTagNameChar_of_isTagSpace hx)
  have hsign : (c.advance (gap ++ name)).rest =
      before ++ (['='] ++ (after ++ (written ++ rest))) := by simp [hrest]
  have hahead : ((c.advance (gap ++ name)).advance (before ++ ['='])).rest =
      after ++ (written ++ rest) := by simp [hrest]
  have hend : ((c.advance (gap ++ name)).advance (before ++ ['='])).advance
      (after ++ written) = c.advance
        (gap ++ (name ++ (before ++ (['='] ++ (after ++ written))))) := by
    simp only [← Cursor.advance_append, List.append_assoc]
  rw [List.all_eq_true] at hgap hbefore
  rw [TagRest.read_of_name (Cursor.tagToken?_name hgap hname hends hrest),
    TagRest.read_of_value (Cursor.tagToken?_equals hbefore hsign)
      (hvalue hahead) htoken,
    TagRest.after_after, hend]
  rfl

namespace AttributeSpelling

/-- The name that still waits for an equals sign behind the attribute. -/
def pending (a : AttributeSpelling) (c : Cursor) : Option (Lexeme String) :=
  match a.value with
  | .missing =>
      some ⟨String.ofList a.name, (c.advance a.gap).spanTo (c.advance a.markup)⟩
  | _ => none

/-- What is complete behind the attribute. -/
def complete (a : AttributeSpelling) (c : Cursor) : List Attribute :=
  match a.value with
  | .missing => []
  | _ => [a.placed c]

theorem complete_append_pending (a : AttributeSpelling) (c : Cursor) :
    a.complete c ++ (a.pending c).toList.map Attribute.ofName =
      [a.placed c] := by
  unfold complete pending
  split
  · next hvalue => simp [placed, Attribute.ofName, hvalue, ValueSpelling.value]
  · simp

/-- An attribute is read to its end.  A name that waited is complete by then. -/
theorem read_attribute (a : AttributeSpelling)
    (pending : Option (Lexeme String)) {c : Cursor} {rest : List Char}
    (hrest : c.rest = a.markup ++ rest)
    (hname : ∀ x ∈ rest.head?, isAttributeNameChar x = false)
    (hvalue : a.value.isBare = true →
      ∀ x ∈ rest.head?, isBareValueChar x = false) :
    TagRest.read pending c =
      (TagRest.read (a.pending c) (c.advance a.markup)).after
        (pending.toList.map Attribute.ofName ++ a.complete c) := by
  obtain ⟨gap, name, value, _, hgap, hlegal⟩ := a
  simp only [markup, List.append_assoc] at hrest
  cases value with
  | missing =>
      rw [List.all_eq_true] at hgap
      rw [TagRest.read_of_name (Cursor.tagToken?_name hgap hlegal hname hrest)]
      simp [AttributeSpelling.pending, complete, markup, ValueSpelling.markup]
  | quoted before after quote value hbefore hafter hquote hfree =>
      simp only [ValueSpelling.markup, List.append_assoc] at hrest
      exact TagRest.read_nameValue hgap hlegal hbefore
        (by simpa using hrest) (Or.inl rfl)
        (Cursor.valueToken?_quoted (List.all_eq_true.mp hafter) hquote hfree)
        pending
  | bare before after value hbefore hafter hbare =>
      simp only [ValueSpelling.markup, List.append_assoc] at hrest
      exact TagRest.read_nameValue hgap hlegal hbefore hrest (Or.inr rfl)
        (Cursor.valueToken?_bare (List.all_eq_true.mp hafter) hbare
          (hvalue rfl)) pending

/-- A gap stands in front of the next attribute. -/
theorem forall_head?_markup {p : Char → Prop}
    (hspace : ∀ x, isTagSpace x = true → p x)
    (attributes : List AttributeSpelling) {rest : List Char}
    (hrest : attributes = [] → ∀ x ∈ rest.head?, p x) :
    ∀ x ∈ (attributes.flatMap markup ++ rest).head?, p x := by
  cases attributes with
  | nil => exact hrest rfl
  | cons a attributes =>
      have hblank := a.gap_blank
      cases hgap : a.gap with
      | nil => exact absurd hgap a.gap_ne
      | cons y gap =>
          rw [hgap, List.all_cons, Bool.and_eq_true] at hblank
          simpa [markup, hgap] using hspace y hblank.1

end AttributeSpelling

section

variable {gap : List Char} (hgap : gap.all isTagSpace = true)
  (selfClosing : Bool) (attributes : List AttributeSpelling) (rest : List Char)

include hgap

/-- No name goes on behind itself in a spelled tag. -/
theorem not_isTagNameChar_head_spelled :
    ∀ x ∈ (attributes.flatMap AttributeSpelling.markup ++
      (tagClose gap selfClosing ++ rest)).head?, isTagNameChar x = false := by
  refine AttributeSpelling.forall_head?_markup
    (fun _ => not_isTagNameChar_of_isTagSpace) attributes
    fun _ => ?_
  rw [tagClose, List.append_assoc]
  apply forall_head?_blanks hgap fun _ => not_isTagNameChar_of_isTagSpace
  cases selfClosing <;> simp [isTagNameChar]

/-- No bare value does either, unless a slash stands right behind it. -/
theorem not_isBareValueChar_head_spelled
    (hne : attributes = [] → selfClosing = true → gap ≠ []) :
    ∀ x ∈ (attributes.flatMap AttributeSpelling.markup ++
      (tagClose gap selfClosing ++ rest)).head?, isBareValueChar x = false := by
  refine AttributeSpelling.forall_head?_markup
    (fun _ => not_isBareValueChar_of_isTagSpace) attributes fun hlast => ?_
  cases gap with
  | nil =>
      cases selfClosing with
      | false => simp [tagClose, isBareValueChar]
      | true => exact absurd rfl (hne hlast rfl)
  | cons y gap =>
      rw [List.all_cons, Bool.and_eq_true] at hgap
      simpa [tagClose] using not_isBareValueChar_of_isTagSpace hgap.1

end

/-- Attributes are read one by one up to the end of the tag. -/
theorem TagRest.read_attributes_tagClose {gap : List Char}
    (hgap : gap.all isTagSpace = true) {selfClosing : Bool}
    {attributes : List AttributeSpelling}
    (hne : selfClosing = true →
      attributes.getLast?.any (·.value.isBare) = true → gap ≠ [])
    {c : Cursor} {rest : List Char}
    (hrest : c.rest = attributes.flatMap AttributeSpelling.markup ++
      (tagClose gap selfClosing ++ rest))
    (pending : Option (Lexeme String)) :
    TagRest.read pending c =
      ⟨pending.toList.map Attribute.ofName ++
          AttributeSpelling.placedAll c attributes,
        if selfClosing then .selfClosing else .opened, [],
        c.advance (attributes.flatMap AttributeSpelling.markup ++
          tagClose gap selfClosing)⟩ := by
  -- the name that waits goes in front of what is read later, so it is general
  -- here
  induction attributes generalizing c pending with
  | nil =>
      rw [TagRest.read_tagClose (List.all_eq_true.mp hgap) hrest pending,
        AttributeSpelling.placedAll, List.append_nil]
      rfl
  | cons a attributes ih =>
      rw [List.flatMap_cons, List.append_assoc] at hrest
      have hname :=
        not_isTagNameChar_head_spelled hgap selfClosing attributes rest
      have hvalue (hbare : a.value.isBare = true) :=
        not_isBareValueChar_head_spelled hgap selfClosing attributes
          rest fun hlast hself =>
          hne hself (by simp [hlast, hbare])
      have hlater : selfClosing = true →
          attributes.getLast?.any (·.value.isBare) = true →
          gap ≠ [] := by
        intro hself hbare
        cases hlast : attributes.getLast? with
        | none => simp [hlast] at hbare
        | some b =>
            exact hne hself (by simpa [List.getLast?_cons, hlast] using hbare)
      rw [a.read_attribute pending hrest
          (fun x hx =>
            not_isAttributeNameChar_of_not_isTagNameChar (hname x hx)) hvalue,
        ih hlater (Cursor.rest_advance_of_eq hrest),
        AttributeSpelling.placedAll, ← List.singleton_append,
        ← a.complete_append_pending c]
      simp [TagRest.after, Cursor.advance_append]

/-- A start tag is read back from every spelling, whatever follows it.  The
reader finds nothing to complain of and takes the tag and no more.  It finds the
name, and the attributes in their order and at their places, and the tag closes
its element if it ends with a slash. -/
theorem StartTag.read?_spelled (t : TagSpelling) (offset : Nat)
    (rest : List Char) :
    let c : Cursor := ⟨offset, t.markup ++ rest⟩
    let next : Cursor := ⟨offset + byteLength t.markup, rest⟩
    StartTag.read? c = some {
      name := String.ofList t.name
      attributes :=
        AttributeSpelling.placedAll (c.advance ('<' :: t.name)) t.attributes
      ending := if t.selfClosing then .selfClosing else .opened
      span := c.spanTo next
      problems := []
      next := next } := by
  intro c next
  have hname : c.rest = '<' ::
      (t.name ++ (t.attributes.flatMap AttributeSpelling.markup ++
      (tagClose t.gap t.selfClosing ++ rest))) := by
    simp [c, TagSpelling.markup]
  have hfirst := TagToken.first?_startTag t.name_legal (endsName_of_head?
    (not_isTagNameChar_head_spelled t.gap_blank t.selfClosing
      t.attributes rest))
  have hhere : (c.advance ('<' :: t.name)).rest =
      t.attributes.flatMap AttributeSpelling.markup ++
      (tagClose t.gap t.selfClosing ++ rest) :=
    Cursor.rest_advance_of_eq hname
  have hread := TagRest.read_attributes_tagClose t.gap_blank t.gap_ne hhere none
  have hnext : (c.advance ('<' :: t.name)).advance
      (t.attributes.flatMap AttributeSpelling.markup ++
        tagClose t.gap t.selfClosing) = next := by
    rw [← Cursor.advance_append]
    change c.advance t.markup = next
    simp [Cursor.advance, c, next]
  simp only [StartTag.read?, hname, hfirst, hread, hnext]
  cases t.selfClosing <;> simp

/-- All spellings of a value in one tag, with a bare value in front of the
slash. -/
theorem StartTag.read?_spelled_mixed :
    ∃ t : TagSpelling,
      t.markup = "<a:b é\tx = 'q\"' y=\"\"\nz<\r=/= />".toList ∧
      StartTag.read? ⟨7, t.markup ++ "</a:b>".toList⟩ = some {
        name := "a:b"
        attributes :=
          [⟨"é", "", ⟨12, 14⟩⟩, ⟨"x", "q\"", ⟨15, 23⟩⟩, ⟨"y", "", ⟨24, 28⟩⟩,
            ⟨"z<", "/=", ⟨29, 35⟩⟩]
        ending := .selfClosing
        span := ⟨7, 38⟩
        problems := []
        next := ⟨38, "</a:b>".toList⟩ } := by
  let t : TagSpelling := {
    name := "a:b".toList
    attributes := [
      { gap := [' '], name := ['é'], value := .missing },
      { gap := ['\t'], name := ['x'],
        value := .quoted [' '] [' '] '\'' ['q', '"'] },
      { gap := [' '], name := ['y'], value := .quoted [] [] '"' [] },
      { gap := ['\n'], name := ['z', '<'],
        value := .bare ['\r'] [] ['/', '='] }]
    gap := [' ']
    selfClosing := true }
  refine ⟨t, by decide +kernel, (StartTag.read?_spelled t 7 _).trans ?_⟩
  decide +kernel

end MarkupTemplate
