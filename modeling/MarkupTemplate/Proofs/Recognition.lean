/-
Tags are recognized in two ways: by looking at the characters ahead, which
decides whether content ends and whether an element begins, and by the tokens of
tags.  The two agree.  The end tag of an open element is seen exactly where the
first token is an end tag of its name, and where a start tag is seen, one is
read.
-/
import MarkupTemplate.Proofs.Reads

namespace MarkupTemplate

/-- The texts in front of and behind a number of bytes, unless a character
stands across that place or the text is shorter. -/
def splitBytes? : Nat → List Char → Option (List Char × List Char)
  | 0, cs => some ([], cs)
  | _ + 1, [] => none
  | n + 1, c :: cs =>
      if c.utf8Size ≤ n + 1 then
        (splitBytes? (n + 1 - c.utf8Size) cs).map fun (front, back) =>
          (c :: front, back)
      else none

theorem splitBytes?_eq_some_iff {n : Nat} {cs front back : List Char} :
    splitBytes? n cs = some (front, back) ↔
      cs = front ++ back ∧ byteLength front = n := by
  fun_induction splitBytes? n cs generalizing front back with
  | case1 cs =>
      constructor
      · rintro h
        simp only [Option.some.injEq, Prod.mk.injEq] at h
        simp [← h.1, ← h.2]
      · rintro ⟨rfl, hlength⟩
        cases front with
        | nil => rfl
        | cons c front =>
            have hpos := byteLength_pos (List.cons_ne_nil c front)
            omega
  | case2 n =>
      constructor
      · simp
      · rintro ⟨hcs, hlength⟩
        have hfront := (List.append_eq_nil_iff.mp hcs.symm).1
        simp [hfront] at hlength
  | case3 n c cs hfits ih =>
      simp only [Option.map_eq_some_iff, Prod.exists, Prod.mk.injEq, ih]
      constructor
      · rintro ⟨front, back, ⟨rfl, hlength⟩, rfl, rfl⟩
        refine ⟨rfl, ?_⟩
        rw [byteLength_cons]
        omega
      · rintro ⟨hcs, hlength⟩
        cases front with
        | nil => simp at hlength
        | cons d front =>
            obtain ⟨rfl, rfl⟩ := List.cons.inj hcs
            rw [byteLength_cons] at hlength
            exact ⟨front, back, ⟨rfl, by omega⟩, rfl, rfl⟩
  | case4 n c cs hwide =>
      constructor
      · simp
      · rintro ⟨hcs, hlength⟩
        cases front with
        | nil => simp at hlength
        | cons d front =>
            obtain ⟨rfl, _⟩ := List.cons.inj hcs
            rw [byteLength_cons] at hlength
            omega

theorem utf8Size_of_isAlpha {c : Char} (h : c.isAlpha = true) :
    c.utf8Size = 1 := by
  rw [Char.utf8Size_eq_one_iff, UInt32.le_iff_toNat_le]
  simp only [Char.isAlpha, Char.isUpper, Char.isLower, Bool.or_eq_true,
    Bool.and_eq_true, decide_eq_true_eq, ge_iff_le, UInt32.le_iff_toNat_le] at h
  rcases h with ⟨_, h⟩ | ⟨_, h⟩
  · exact Nat.le_trans h (by decide)
  · exact Nat.le_trans h (by decide)

theorem utf8Size_toLower (c : Char) : c.toLower.utf8Size = c.utf8Size := by
  by_cases hupper : c.isUpper = true
  · have halpha : c.isAlpha = true := by simp [Char.isAlpha, hupper]
    rw [utf8Size_of_isAlpha halpha, utf8Size_of_isAlpha (by simpa using halpha)]
  · rw [Char.toLower_eq_of_not_isUpper hupper]

/-- Spellings of a name take up as many bytes as the name. -/
theorem byteLength_of_map_toLower {name spelled : List Char}
    (h : spelled.map Char.toLower = name.map Char.toLower) :
    byteLength spelled = byteLength name := by
  have hlower : ∀ cs : List Char,
      byteLength (cs.map Char.toLower) = byteLength cs := by
    intro cs
    induction cs with
    | nil => rfl
    | cons c cs ih => simp [ih, utf8Size_toLower]
  rw [← hlower, h, hlower]

/-- The test for the end tag of an element by bytes: what is as long as the name
has to be a spelling of it, and what follows has to end it. -/
def opensEndTagAtBytes (name : String) : List Char → Bool
  | '<' :: '/' :: cs =>
      match splitBytes? (byteLength name.toList) cs with
      | some (spelled, behind) =>
          spelled.map Char.toLower == foldCase name && endsName behind
      | none => false
  | _ => false

theorem opensEndTag_eq_atBytes (name : String) (cs : List Char) :
    opensEndTag name cs = opensEndTagAtBytes name cs := by
  rw [Bool.eq_iff_iff, opensEndTag_iff]
  constructor
  · rintro ⟨spelled, rest, rfl, hspelled, hends⟩
    have hsplit : splitBytes? (byteLength name.toList) (spelled ++ rest) =
        some (spelled, rest) :=
      splitBytes?_eq_some_iff.mpr ⟨rfl, byteLength_of_map_toLower hspelled⟩
    simp [opensEndTagAtBytes, hsplit, hspelled, hends]
  · intro h
    unfold opensEndTagAtBytes at h
    split at h
    · next cs =>
        split at h
        · next spelled behind hsplit =>
            obtain ⟨rfl, _⟩ := splitBytes?_eq_some_iff.mp hsplit
            rw [Bool.and_eq_true, beq_iff_eq] at h
            exact ⟨spelled, behind, rfl, h.1, h.2⟩
        · contradiction
    · contradiction

/-- In front of a bracket there is nothing to skip. -/
theorem Cursor.skipSpace_of_bracket {c : Cursor} {more : List Char}
    (hrest : c.rest = '<' :: more) : c.skipSpace = c := by
  have hblanks : c.rest.takeWhile isTagSpace = [] := by simp [hrest, isTagSpace]
  rw [Cursor.skipSpace, hblanks]
  rfl

theorem Cursor.tagToken?_of_bracket {c : Cursor} {more taken : List Char}
    {token : TagToken} (hrest : c.rest = '<' :: more)
    (hfirst : TagToken.first? c.rest = some (token, taken)) :
    c.tagToken? =
      some (⟨token, c.spanTo (c.advance taken)⟩, c.advance taken) := by
  rw [Cursor.tagToken?, Cursor.lexeme?,
    Cursor.skipSpace_of_bracket hrest, hfirst]
  rfl

/-- A token that stands right at a cursor is the first one of the text ahead. -/
theorem Cursor.first?_of_tagToken? {c next : Cursor} {lexeme : Lexeme TagToken}
    (h : c.tagToken? = some (lexeme, next))
    (hhere : lexeme.span.start = c.offset) :
    ∃ taken, TagToken.first? c.rest = some (lexeme.token, taken) ∧
      next = c.advance taken := by
  obtain ⟨taken, hfirst, hnext, hspan⟩ := Cursor.lexeme?_eq_some h
  have hskip : c.skipSpace = c := by
    refine Cursor.Leads.eq_of_offset c.leads_skipSpace (Cursor.Leads.refl c) ?_
    rw [← hhere, hspan]
    rfl
  rw [hskip] at hfirst hnext
  exact ⟨taken, hfirst, hnext⟩

/-- The name behind a start token is any name of a tag. -/
theorem TagToken.exists_startOpen_iff {name : String} :
    (∃ cs taken, TagToken.first? cs = some (.startOpen name, taken)) ↔
      isTagName name.toList = true := by
  constructor
  · rintro ⟨cs, taken, hfirst⟩
    obtain ⟨spelled, _, _, hname, _, rfl, _⟩ :=
      TagToken.first?_eq_startOpen hfirst
    simpa using hname
  · intro hname
    have hends : endsName [] = true := rfl
    have hfirst := TagToken.first?_startTag hname hends
    rw [String.ofList_toList] at hfirst
    exact ⟨_, _, hfirst⟩

theorem endTag?_of_tagToken? {c next : Cursor} {spelled : String} {span : Span}
    (h : c.tagToken? = some (⟨.endOpen spelled, span⟩, next))
    (hhere : span.start = c.offset) :
    endTag? c = some (spelled, endTagRest next) := by
  obtain ⟨taken, hfirst, rfl⟩ := Cursor.first?_of_tagToken? h hhere
  rw [endTag?, hfirst]

/-- Where the end tag of an element is seen, the first token is that tag. -/
theorem Cursor.tagToken?_of_opensEndTag {name : String} {c : Cursor}
    (hname : isTagName name.toList = true)
    (h : opensEndTag name c.rest = true) :
    ∃ spelled span next, c.tagToken? = some (⟨.endOpen spelled, span⟩, next) ∧
      span.start = c.offset ∧ foldCase spelled = foldCase name ∧
      next.offset = c.offset + byteLength ('<' :: '/' :: name.toList) := by
  obtain ⟨spelled, rest, hrest, hspelled, hends⟩ := opensEndTag_iff.mp h
  have hfirst :=
    TagToken.first?_endTag (isTagName_of_map_toLower hspelled hname) hends
  rw [← hrest] at hfirst
  refine ⟨_, _, _, Cursor.tagToken?_of_bracket hrest hfirst, rfl, ?_, ?_⟩
  · simpa [foldCase] using hspelled
  · simp [byteLength_of_map_toLower hspelled]

/-- The test for the end tag of an element holds exactly where the first token
stands right ahead and is an end tag of that name. -/
theorem opensEndTag_iff_tagToken? {name : String}
    (hname : isTagName name.toList = true) (c : Cursor) :
    opensEndTag name c.rest = true ↔
      ∃ spelled span next, c.tagToken? = some (⟨.endOpen spelled, span⟩, next) ∧
        span.start = c.offset ∧ foldCase spelled = foldCase name := by
  constructor
  · intro h
    obtain ⟨spelled, span, next, htoken, hhere, hfold, _⟩ :=
      Cursor.tagToken?_of_opensEndTag hname h
    exact ⟨spelled, span, next, htoken, hhere, hfold⟩
  · rintro ⟨spelled, span, next, htoken, hhere, hfold⟩
    exact (opensEndTag_iff_of_endTag? hname
      (endTag?_of_tagToken? htoken hhere)).mpr hfold.symm

/-- An element whose end tag is seen is closed by it. -/
theorem StartTag.close_of_opensEndTag {tag : StartTag} {start c : Cursor}
    (htag : StartTag.read? start = some tag)
    (h : opensEndTag tag.name c.rest = true) :
    ∃ spelled next, endTag? c = some (spelled, next) ∧
      foldCase spelled = foldCase tag.name ∧
      tag.close c = ([], next) ∧
      c.offset + byteLength ('<' :: '/' :: tag.name.toList) ≤ next.offset := by
  obtain ⟨spelled, span, next, htoken, hhere, hfold, hoffset⟩ :=
    Cursor.tagToken?_of_opensEndTag (StartTag.isTagName_name htag) h
  have hread := endTag?_of_tagToken? htoken hhere
  refine ⟨spelled, _, hread, hfold, by simp [StartTag.close, h, hread], ?_⟩
  rw [← hoffset]
  exact (endTagRest_leads next).offset_le

/-- Behind a bracket a letter begins a start tag. -/
theorem StartTag.exists_read?_of_letter {c : Cursor} {x : Char}
    (hx : x.isAlpha = true) (h : ['<', x] <+: c.rest) :
    ∃ tag span next, StartTag.read? c = some tag ∧
      c.tagToken? = some (⟨.startOpen tag.name, span⟩, next) ∧
      span.start = c.offset := by
  obtain ⟨tag, htag⟩ : ∃ tag, StartTag.read? c = some tag := by
    rw [← Option.isSome_iff_exists, Option.isSome_iff_ne_none, ne_eq,
      StartTag.read?_eq_none_iff]
    exact fun hnone => hnone x hx h
  obtain ⟨spelled, rest, hrest, hname, hends, hspelled, _⟩ :=
    StartTag.read?_eq_some htag
  have hfirst := TagToken.first?_startTag hname hends
  rw [← hrest, ← hspelled] at hfirst
  exact ⟨tag, _, _, htag, Cursor.tagToken?_of_bracket hrest hfirst, rfl⟩

/-- Looking ahead and reading tokens find the same tags.  The names of elements
are the names that start tokens have.  For each of them, the end tag is seen
ahead exactly if the first token is one; an element is then closed by that tag,
which takes up its name at least.  A bracket and a letter always begin an
element. -/
theorem Cursor.recognizes_tags (c : Cursor) :
    (∀ name, (∃ cs taken, TagToken.first? cs = some (.startOpen name, taken)) ↔
      isTagName name.toList = true) ∧
    (∀ name, opensEndTag name c.rest = opensEndTagAtBytes name c.rest) ∧
    (∀ name, isTagName name.toList = true →
      (opensEndTag name c.rest = true ↔
        ∃ spelled span next,
          c.tagToken? = some (⟨.endOpen spelled, span⟩, next) ∧
          span.start = c.offset ∧ foldCase spelled = foldCase name)) ∧
    (∀ start tag, StartTag.read? start = some tag →
      opensEndTag tag.name c.rest = true →
      ∃ spelled next, endTag? c = some (spelled, next) ∧
        foldCase spelled = foldCase tag.name ∧
        tag.close c = ([], next) ∧
        c.offset + byteLength ('<' :: '/' :: tag.name.toList) ≤ next.offset) ∧
    (∀ x, x.isAlpha = true → ['<', x] <+: c.rest →
      ∃ tag span next, c.tagToken? = some (⟨.startOpen tag.name, span⟩, next) ∧
        span.start = c.offset ∧ StartTag.read? c = some tag ∧
        ∀ o mode, mode.allowsMarkup = true →
          Piece.read o mode c = .start tag) := by
  refine ⟨fun name => TagToken.exists_startOpen_iff,
    fun name => opensEndTag_eq_atBytes name c.rest,
    fun name hname => opensEndTag_iff_tagToken? hname c,
    fun start tag htag hopens => StartTag.close_of_opensEndTag htag hopens, ?_⟩
  intro x hx hahead
  obtain ⟨tag, span, next, htag, htoken, hhere⟩ :=
    StartTag.exists_read?_of_letter hx hahead
  refine ⟨tag, span, next, htoken, hhere, htag, fun o mode hmode => ?_⟩
  rw [TextMode.allowsMarkup_iff.mp hmode]
  exact Piece.read_of_startTag htag

theorem Cursor.recognizes_tags_umlaut :
    let c : Cursor := ⟨6, "</X-ä >".toList⟩
    let start : Cursor := ⟨0, "<x-ä>".toList⟩
    opensEndTag "x-ä" c.rest = true ∧
    (∃ spelled span next, c.tagToken? = some (⟨.endOpen spelled, span⟩, next) ∧
      span.start = 6 ∧ foldCase spelled = foldCase "x-ä") ∧
    (∃ tag next, StartTag.read? start = some tag ∧ tag.name = "x-ä" ∧
      tag.close c = ([], next) ∧ 6 + 6 ≤ next.offset) ∧
    ∀ o, ∃ tag, Piece.read o .data start = .start tag := by
  intro c start
  have hopens : opensEndTag "x-ä" c.rest = true := by decide +kernel
  have hname : (StartTag.read? start).map (·.name) = some "x-ä" := by
    decide +kernel
  obtain ⟨tag, htag, hname⟩ := Option.map_eq_some_iff.mp hname
  obtain ⟨_, _, hseen, hclosed, _⟩ := c.recognizes_tags
  obtain ⟨_, _, _, _, hbegun⟩ := start.recognizes_tags
  obtain ⟨_, next, _, _, hclose, hoffset⟩ :=
    hclosed start tag htag (by rw [hname]; exact hopens)
  obtain ⟨begun, _, _, _, _, _, hpiece⟩ :=
    hbegun 'x' (by decide) (by decide +kernel)
  refine ⟨hopens, (hseen "x-ä" (by decide +kernel)).mp hopens,
    ?_, fun o => ⟨begun, hpiece o _ rfl⟩⟩
  rw [hname] at hoffset
  exact ⟨tag, next, htag, hname, hclose, hoffset⟩

end MarkupTemplate
