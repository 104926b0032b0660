/-
Start tags written out, and read back.  Attributes are written one by one with
their values in quotes where the value allows it, and the reader of tags takes
each of them off the front of what was written.
-/
import MarkupTemplate.Proofs.Reads

namespace MarkupTemplate

/-- A name that an attribute can have: any but for the characters that end a
name, and not one that begins a tag. -/
def isAttributeName : List Char → Bool
  | [] => false
  | c :: cs => c != '<' && (c :: cs).all isAttributeNameChar

def isBareValue : List Char → Bool
  | [] => false
  | c :: cs => c != '"' && c != '\'' && (c :: cs).all isBareValueChar

namespace Attribute

/-- Whether neither kind of quotes can enclose the value. -/
def needsBare (a : Attribute) : Bool :=
  a.value.toList.contains '"' && a.value.toList.contains '\''

/-- The value in double quotes, in single quotes if it holds a double quote,
or bare if it holds quotes of both kinds. -/
def valueMarkup (a : Attribute) : List Char :=
  if a.needsBare then a.value.toList
  else if a.value.toList.contains '"' then '\'' :: a.value.toList ++ ['\'']
  else '"' :: a.value.toList ++ ['"']

def markup (a : Attribute) : List Char :=
  ' ' :: a.name.toList ++ '=' :: a.valueMarkup

/-- An attribute that the reader can make: its name may be missing, and a
value with quotes of both kinds came without quotes around it. -/
def isReadable (a : Attribute) : Bool :=
  (a.name.toList.isEmpty || isAttributeName a.name.toList) &&
    (!a.needsBare || isBareValue a.value.toList)

def unplaced (a : Attribute) : Attribute := { a with span := ⟨0, 0⟩ }

end Attribute

theorem not_isTagSpace_of_isTagNameChar {c : Char}
    (h : isTagNameChar c = true) : isTagSpace c = false := by
  simp only [isTagNameChar, Bool.and_eq_true, Bool.not_eq_true'] at h
  exact h.1.1

theorem isTagNameChar_of_isAttributeNameChar {c : Char}
    (h : isAttributeNameChar c = true) : isTagNameChar c = true := by
  simp only [isAttributeNameChar, Bool.and_eq_true] at h
  exact h.1

/-- The next token behind blanks, by what stands behind them. -/
theorem Cursor.lexeme?_of_rest {τ : Type}
    {first? : List Char → Option (τ × List Char)} {c : Cursor}
    {blanks taken rest : List Char} {token : τ}
    (hrest : c.rest = blanks ++ (taken ++ rest))
    (hblanks : ∀ x ∈ blanks, isTagSpace x = true)
    (htaken : ∀ x ∈ (taken ++ rest).head?, isTagSpace x = false)
    (hfirst : first? (taken ++ rest) = some (token, taken)) :
    c.lexeme? first? =
      some (⟨token, (c.advance blanks).spanTo (c.advance (blanks ++ taken))⟩,
        c.advance (blanks ++ taken)) := by
  have hskip : c.skipSpace = c.advance blanks := by
    rw [Cursor.skipSpace, hrest, takeWhile_run hblanks htaken]
  simp only [Cursor.lexeme?, hskip, Cursor.rest_advance_of_eq hrest, hfirst,
    Option.map_some, Cursor.advance_append]

theorem TagToken.first?_name {name rest : List Char}
    (hname : isAttributeName name = true)
    (hrest : ∀ x ∈ rest.head?, isAttributeNameChar x = false) :
    TagToken.first? (name ++ rest) =
      some (.name (String.ofList name), name) := by
  cases name with
  | nil => simp [isAttributeName] at hname
  | cons c cs =>
      simp only [isAttributeName, Bool.and_eq_true, bne_iff_ne, List.all_cons,
        List.all_eq_true] at hname
      obtain ⟨hbracket, hc, hcs⟩ := hname
      simp only [isAttributeNameChar, isTagNameChar, Bool.and_eq_true,
        bne_iff_ne] at hc
      rw [List.cons_append, TagToken.first?]
      · rw [takeWhile_run hcs hrest]
      all_goals simp_all

theorem ValueToken.afterQuote_closed {quote : Char} {value rest : List Char}
    (hvalue : quote ∉ value) :
    ValueToken.afterQuote quote (value ++ quote :: rest) =
      (.quoted (String.ofList value), quote :: (value ++ [quote])) := by
  have htaken : (value ++ quote :: rest).takeWhile (· != quote) = value := by
    apply takeWhile_run
    · intro c hc
      simp only [bne_iff_ne]
      rintro rfl
      exact hvalue hc
    · simp
  simp [ValueToken.afterQuote, htaken]

theorem ValueToken.first?_bare {value rest : List Char}
    (hvalue : isBareValue value = true)
    (hrest : ∀ x ∈ rest.head?, isBareValueChar x = false) :
    ValueToken.first? (value ++ rest) =
      some (.bare (String.ofList value), value) := by
  cases value with
  | nil => simp [isBareValue] at hvalue
  | cons c cs =>
      simp only [isBareValue, Bool.and_eq_true, bne_iff_ne, List.all_cons,
        List.all_eq_true] at hvalue
      obtain ⟨⟨hdouble, hsingle⟩, hc, hcs⟩ := hvalue
      simp only [isBareValueChar, Bool.and_eq_true, bne_iff_ne] at hc
      rw [List.cons_append, ValueToken.first?]
      · rw [takeWhile_run hcs hrest]
      all_goals simp_all

/-- A value in quotes is read behind blanks, with its quotes. -/
theorem Cursor.valueToken?_quoted {c : Cursor} {blanks rest : List Char}
    (hblanks : ∀ x ∈ blanks, isTagSpace x = true) {quote : Char}
    (hquote : quote = '"' ∨ quote = '\'') {value : List Char}
    (hvalue : quote ∉ value)
    (hrest : c.rest = blanks ++ ((quote :: value ++ [quote]) ++ rest)) :
    let next := c.advance (blanks ++ (quote :: value ++ [quote]))
    c.valueToken? =
      some (⟨.quoted (String.ofList value), (c.advance blanks).spanTo next⟩,
        next) := by
  apply Cursor.lexeme?_of_rest hrest hblanks
  · rcases hquote with rfl | rfl <;> simp [isTagSpace]
  · rcases hquote with rfl | rfl <;>
      simp [ValueToken.first?, ValueToken.afterQuote_closed hvalue]

theorem Cursor.valueToken?_bare {c : Cursor} {blanks value rest : List Char}
    (hblanks : ∀ x ∈ blanks, isTagSpace x = true)
    (hvalue : isBareValue value = true)
    (hends : ∀ x ∈ rest.head?, isBareValueChar x = false)
    (hrest : c.rest = blanks ++ (value ++ rest)) :
    let next := c.advance (blanks ++ value)
    c.valueToken? =
      some (⟨.bare (String.ofList value), (c.advance blanks).spanTo next⟩,
        next) := by
  apply Cursor.lexeme?_of_rest hrest hblanks _
    (ValueToken.first?_bare hvalue hends)
  intro x hx
  cases value with
  | nil => simp [isBareValue] at hvalue
  | cons d ds =>
      simp only [List.cons_append, List.head?_cons, Option.mem_some_iff] at hx
      simp only [isBareValue, List.all_cons, isBareValueChar, Bool.and_eq_true,
        Bool.not_eq_true'] at hvalue
      rw [← hx]
      exact hvalue.2.1.1

theorem isTagSpace_of_mem_nil :
    ∀ x ∈ ([] : List Char), isTagSpace x = true := by simp

/-- The value of an attribute is read back from behind the equals sign. -/
theorem Cursor.valueToken?_markup {a : Attribute}
    (ha : a.isReadable = true) {c : Cursor} {rest : List Char}
    (hrest : c.rest = a.valueMarkup ++ rest)
    (hends : a.needsBare = true → ∀ x ∈ rest.head?, isBareValueChar x = false) :
    ∃ token span next, c.valueToken? = some (⟨token, span⟩, next) ∧
      next.rest = rest ∧
      (token = .quoted a.value ∨ token = .bare a.value) := by
  simp only [Attribute.valueMarkup] at hrest
  split at hrest
  · next hbare =>
      simp only [Attribute.isReadable, hbare, Bool.not_true, Bool.false_or,
        Bool.and_eq_true] at ha
      have hread :=
        Cursor.valueToken?_bare isTagSpace_of_mem_nil ha.2 (hends hbare) hrest
      exact ⟨_, _, _, hread, Cursor.rest_advance_of_eq hrest, Or.inr (by simp)⟩
  · next hbare =>
      simp only [Attribute.needsBare, Bool.and_eq_true,
        List.contains_iff_mem] at hbare
      split at hrest
      · next hdouble =>
          have hsingle : '\'' ∉ a.value.toList :=
            fun hmem => hbare ⟨List.contains_iff_mem.mp hdouble, hmem⟩
          have hread :=
            Cursor.valueToken?_quoted isTagSpace_of_mem_nil
              (Or.inr rfl) hsingle hrest
          exact ⟨_, _, _, hread, Cursor.rest_advance_of_eq hrest,
            Or.inl (by simp)⟩
      · next hdouble =>
          rw [List.contains_iff_mem] at hdouble
          have hread :=
            Cursor.valueToken?_quoted isTagSpace_of_mem_nil
              (Or.inl rfl) hdouble hrest
          exact ⟨_, _, _, hread, Cursor.rest_advance_of_eq hrest,
            Or.inl (by simp)⟩

/-- An equals sign with a value behind it completes an attribute. -/
theorem TagRest.read_of_value {pending : Option (Lexeme String)}
    {c next behind : Cursor} {span valueSpan : Span} {token : ValueToken}
    {value : String} (hequals : c.tagToken? = some (⟨.equals, span⟩, next))
    (hvalue : next.valueToken? = some (⟨token, valueSpan⟩, behind))
    (htoken : token = .quoted value ∨ token = .bare value) :
    TagRest.read pending c = (TagRest.read none behind).after
      [Attribute.ofValue (pending.getD ⟨"", span⟩) value valueSpan] := by
  rw [TagRest.read]
  split <;> rename_i h <;> rw [hequals] at h <;> cases h
  split <;> rename_i h <;> rw [hvalue] at h <;> cases h
  all_goals rcases htoken with htoken | htoken <;> cases htoken
  · rfl
  · rfl

theorem TagRest.read_of_name {pending : Option (Lexeme String)}
    {c next : Cursor} {name : String} {span : Span}
    (hname : c.tagToken? = some (⟨.name name, span⟩, next)) :
    TagRest.read pending c = (TagRest.read (some ⟨name, span⟩) next).after
      (pending.toList.map Attribute.ofName) := by
  rw [TagRest.read]
  split <;> rename_i h <;> rw [hname] at h <;> cases h
  rfl

theorem TagRest.read_of_close {pending : Option (Lexeme String)}
    {c next : Cursor} {span : Span}
    (hclose : c.tagToken? = some (⟨.close, span⟩, next)) :
    TagRest.read pending c =
      ⟨pending.toList.map Attribute.ofName, .opened, [], next⟩ := by
  rw [TagRest.read]
  split <;> rename_i h <;> rw [hclose] at h <;> cases h
  rfl

theorem TagRest.read_of_selfClose {pending : Option (Lexeme String)}
    {c next : Cursor} {span : Span}
    (hclose : c.tagToken? = some (⟨.selfClose, span⟩, next)) :
    TagRest.read pending c =
      ⟨pending.toList.map Attribute.ofName, .selfClosing, [], next⟩ := by
  rw [TagRest.read]
  split <;> rename_i h <;> rw [hclose] at h <;> cases h
  rfl

section

variable {c : Cursor} {blanks rest : List Char}
  (hblanks : ∀ x ∈ blanks, isTagSpace x = true)

include hblanks

theorem Cursor.tagToken?_name {name : List Char}
    (hname : isAttributeName name = true)
    (hends : ∀ x ∈ rest.head?, isAttributeNameChar x = false)
    (hrest : c.rest = blanks ++ (name ++ rest)) :
    let next := c.advance (blanks ++ name)
    c.tagToken? =
      some (⟨.name (String.ofList name), (c.advance blanks).spanTo next⟩,
        next) := by
  apply Cursor.lexeme?_of_rest hrest hblanks _
    (TagToken.first?_name hname hends)
  intro x hx
  cases name with
  | nil => simp [isAttributeName] at hname
  | cons d ds =>
      simp only [List.cons_append, List.head?_cons, Option.mem_some_iff] at hx
      simp only [isAttributeName, List.all_cons, Bool.and_eq_true] at hname
      rw [← hx]
      exact not_isTagSpace_of_isTagNameChar
        (isTagNameChar_of_isAttributeNameChar hname.2.1)

theorem Cursor.tagToken?_equals (hrest : c.rest = blanks ++ (['='] ++ rest)) :
    let next := c.advance (blanks ++ ['='])
    c.tagToken? = some (⟨.equals, (c.advance blanks).spanTo next⟩, next) :=
  Cursor.lexeme?_of_rest hrest hblanks (by simp [isTagSpace])
    (by simp [TagToken.first?])

theorem Cursor.tagToken?_close (hrest : c.rest = blanks ++ (['>'] ++ rest)) :
    let next := c.advance (blanks ++ ['>'])
    c.tagToken? = some (⟨.close, (c.advance blanks).spanTo next⟩, next) :=
  Cursor.lexeme?_of_rest hrest hblanks (by simp [isTagSpace])
    (by simp [TagToken.first?])

theorem Cursor.tagToken?_selfClose
    (hrest : c.rest = blanks ++ (['/', '>'] ++ rest)) :
    let next := c.advance (blanks ++ ['/', '>'])
    c.tagToken? = some (⟨.selfClose, (c.advance blanks).spanTo next⟩, next) :=
  Cursor.lexeme?_of_rest hrest hblanks (by simp [isTagSpace])
    (by simp [TagToken.first?])

end

namespace TagRest

theorem read_attribute {a : Attribute} (ha : a.isReadable = true) {c : Cursor}
    {rest : List Char} (hrest : c.rest = a.markup ++ rest)
    (hends : a.needsBare = true → ∀ x ∈ rest.head?, isBareValueChar x = false) :
    ∃ b d, TagRest.read none c = (TagRest.read none d).after [b] ∧
      b.unplaced = a.unplaced ∧ d.rest = rest := by
  have hname := ha
  simp only [Attribute.isReadable, Bool.and_eq_true, Bool.or_eq_true,
    List.isEmpty_iff] at hname
  have hblank : ∀ x ∈ [' '], isTagSpace x = true := by simp [isTagSpace]
  rcases hname.1 with hempty | hname
  · have hequals : c.rest = [' '] ++ (['='] ++ (a.valueMarkup ++ rest)) := by
      simp [hrest, Attribute.markup, hempty]
    have hnext : (c.advance ([' '] ++ ['='])).rest = a.valueMarkup ++ rest := by
      simp [hequals]
    obtain ⟨token, valueSpan, behind, hvalue, hbehind, htoken⟩ :=
      Cursor.valueToken?_markup ha hnext hends
    refine ⟨_, behind,
      read_of_value (Cursor.tagToken?_equals hblank hequals) hvalue htoken, ?_,
      hbehind⟩
    have hnil : a.name = "" := by simpa using hempty
    simp [Attribute.unplaced, Attribute.ofValue, hnil]
  · have hword : c.rest = [' '] ++
        (a.name.toList ++ (['='] ++ (a.valueMarkup ++ rest))) := by
      simp [hrest, Attribute.markup]
    obtain ⟨span, hread⟩ : ∃ span, c.tagToken? =
        some (⟨.name (String.ofList a.name.toList), span⟩,
          c.advance ([' '] ++ a.name.toList)) :=
      ⟨_,
        Cursor.tagToken?_name hblank hname
          (by simp [isAttributeNameChar]) hword⟩
    have hequals : (c.advance ([' '] ++ a.name.toList)).rest =
        [] ++ (['='] ++ (a.valueMarkup ++ rest)) := by simp [hword]
    obtain ⟨token, valueSpan, behind, hvalue, hbehind, htoken⟩ :=
      Cursor.valueToken?_markup ha (Cursor.rest_advance_of_eq hequals) hends
    refine ⟨Attribute.ofValue ⟨String.ofList a.name.toList,
      span⟩ a.value valueSpan, behind, ?_, ?_, hbehind⟩
    · rw [read_of_name hread,
        read_of_value (Cursor.tagToken?_equals isTagSpace_of_mem_nil hequals)
          hvalue htoken]
      rfl
    · simp [Attribute.unplaced, Attribute.ofValue]

/-- Written attributes are read back one by one, whatever stands behind them. -/
theorem read_attributes {attributes : List Attribute}
    (hreadable : ∀ a ∈ attributes, a.isReadable = true) {c : Cursor}
    {rest : List Char}
    (hrest : c.rest = attributes.flatMap Attribute.markup ++ rest)
    (hends : ∀ a ∈ attributes, a.needsBare = true →
      ∀ x ∈ rest.head?, isBareValueChar x = false) :
    ∃ found d, TagRest.read none c = (TagRest.read none d).after found ∧
      found.map Attribute.unplaced = attributes.map Attribute.unplaced ∧
      d.rest = rest := by
  induction attributes generalizing c with
  | nil => exact ⟨[], c, by simp [TagRest.after], rfl, by simpa using hrest⟩
  | cons a attributes ih =>
      have hfirst : a.needsBare = true →
          ∀ x ∈ (attributes.flatMap Attribute.markup ++ rest).head?,
            isBareValueChar x = false := by
        intro hbare
        cases attributes with
        | nil => simpa using hends a (by simp) hbare
        | cons b _ => simp [Attribute.markup, isBareValueChar, isTagSpace]
      obtain ⟨b, d, hread, hb, hd⟩ := read_attribute (hreadable a (by simp))
        (by simpa using hrest) hfirst
      obtain ⟨found, e, hreads, hfound, he⟩ := ih
        (fun x hx => hreadable x (List.mem_cons_of_mem a hx)) hd
        (fun x hx => hends x (List.mem_cons_of_mem a hx))
      refine ⟨b :: found, e, ?_, by simp [hb, hfound], he⟩
      rw [hread, hreads]
      rfl

end TagRest

theorem not_isBareValueChar_of_isTagSpace {x : Char} (h : isTagSpace x = true) :
    isBareValueChar x = false := by
  simp [isBareValueChar, h]

/-- The end of a start tag behind blanks. -/
def tagClose (gap : List Char) (selfClosing : Bool) : List Char :=
  gap ++ if selfClosing then ['/', '>'] else ['>']

theorem TagRest.read_tagClose {gap : List Char}
    (hgap : ∀ x ∈ gap, isTagSpace x = true) {selfClosing : Bool} {c : Cursor}
    {rest : List Char} (hrest : c.rest = tagClose gap selfClosing ++ rest)
    (pending : Option (Lexeme String)) :
    TagRest.read pending c =
      ⟨pending.toList.map Attribute.ofName,
        if selfClosing then .selfClosing else .opened, [],
        c.advance (tagClose gap selfClosing)⟩ := by
  rw [tagClose, List.append_assoc] at hrest
  cases selfClosing with
  | false => exact TagRest.read_of_close (Cursor.tagToken?_close hgap hrest)
  | true =>
      exact TagRest.read_of_selfClose (Cursor.tagToken?_selfClose hgap hrest)

/-- A start tag as it is written, with blanks in front of its end if it closes
the element. -/
def startTagMarkup (gap : List Char) (tag : String)
    (attributes : List Attribute) (selfClosing : Bool) : List Char :=
  '<' :: tag.toList ++ attributes.flatMap Attribute.markup ++
    tagClose (if selfClosing then gap else []) selfClosing

theorem endsName_markup {gap : List Char}
    (hgap : ∀ x ∈ gap, isTagSpace x = true) (attributes : List Attribute)
    (selfClosing : Bool) (rest : List Char) :
    endsName (attributes.flatMap Attribute.markup ++
      (tagClose gap selfClosing ++ rest)) = true := by
  cases attributes with
  | cons a attributes =>
      simp [Attribute.markup, endsName, isTagNameChar, isTagSpace]
  | nil =>
      cases gap with
      | nil => cases selfClosing <;> simp [tagClose, endsName, isTagNameChar]
      | cons x gap => simp [tagClose, endsName, isTagNameChar, hgap x (by simp)]

/-- A written start tag is read back whole.  A bare value would run into a
slash right behind it, so one asks for a gap in front of the ending. -/
theorem StartTag.read?_markup {gap : List Char}
    (hgap : ∀ x ∈ gap, isTagSpace x = true) {tag : String}
    (htag : isTagName tag.toList = true) {attributes : List Attribute}
    (hreadable : ∀ a ∈ attributes, a.isReadable = true) {selfClosing : Bool}
    (hbare : ∀ a ∈ attributes, a.needsBare = true → gap ≠ []) {c : Cursor}
    {rest : List Char}
    (hrest : c.rest = startTagMarkup gap tag attributes selfClosing ++ rest) :
    ∃ found, StartTag.read? c = some found ∧ found.name = tag ∧
      found.attributes.map Attribute.unplaced =
        attributes.map Attribute.unplaced ∧
      found.ending = (if selfClosing then .selfClosing else .opened) ∧
      found.problems = [] ∧ found.next.rest = rest := by
  let blanks := if selfClosing then gap else []
  have hblanks : ∀ x ∈ blanks, isTagSpace x = true := by
    cases selfClosing with
    | false => simp [blanks]
    | true => exact hgap
  have hfirst := TagToken.first?_startTag htag
    (endsName_markup hblanks attributes selfClosing rest)
  have hcut : c.rest = '<' ::
      (tag.toList ++ (attributes.flatMap Attribute.markup ++
      (tagClose blanks selfClosing ++ rest))) := by
    simp [hrest, startTagMarkup, blanks]
  rw [← hcut] at hfirst
  have hhere : (c.advance ('<' :: tag.toList)).rest =
      attributes.flatMap Attribute.markup ++
      (tagClose blanks selfClosing ++ rest) := by
    simp [hcut]
  have hends : ∀ a ∈ attributes, a.needsBare = true →
      ∀ x ∈ (tagClose blanks selfClosing ++ rest).head?,
      isBareValueChar x = false := by
    intro a ha hneeds x hx
    cases selfClosing with
    | false =>
        obtain rfl : '>' = x := by simpa [tagClose, blanks] using hx
        rfl
    | true =>
        cases gap with
        | nil => exact absurd rfl (hbare a ha hneeds)
        | cons y gap =>
            obtain rfl : y = x := by simpa [tagClose, blanks] using hx
            exact not_isBareValueChar_of_isTagSpace (hgap y List.mem_cons_self)
  obtain ⟨found, d, hread, hfound, hd⟩ :=
    TagRest.read_attributes hreadable hhere hends
  have hending := TagRest.read_tagClose hblanks hd none
  refine ⟨_, by simp only [StartTag.read?, hfirst, hread, hending]; rfl, ?_⟩
  cases selfClosing <;> simp [TagRest.after, hfound, hd]

end MarkupTemplate
