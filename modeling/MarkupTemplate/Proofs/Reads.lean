/-
Reading siblings as a relation.  Each rule says what the reader meets and what
it makes of it, so that a fact about reading is proved rule by rule.
-/
import MarkupTemplate.Proofs.TagName

namespace MarkupTemplate

/-- No comment, CDATA section or tag begins with these characters. -/
structure NoMarkup (rest : List Char) : Prop where
  comment : ¬ "<!--".toList <+: rest
  cdata : ¬ "<![CDATA[".toList <+: rest
  endTag : ∀ x, x.isAlpha = true → ¬ ['<', '/', x] <+: rest
  startTag : ∀ x, x.isAlpha = true → ¬ ['<', x] <+: rest

/-- A CDATA section read at once.  What it holds is one text, taken as it
stands. -/
def Siblings.cdata (c : Cursor) : Siblings :=
  let opening := "<![CDATA[".toList
  let e := Enclosed.read opening "]]>".toList c
  let inside := c.advance opening
  let text := Node.text (String.ofList e.body)
    (inside.spanTo (inside.advance e.body)) none
  ⟨if e.body.isEmpty then [] else [text],
    if e.closed then [] else
      [.problem (.unterminatedCdata (c.spanTo e.next))],
    e.next⟩

/-- What the reader meets that is complete in itself. -/
inductive Leaf (o : ReadOptions) (mode : TextMode) (c : Cursor) :
    Siblings → Prop where
  | comment (hmode : mode = .data) (hopening : "<!--".toList <+: c.rest) :
      Leaf o mode c (.comment c)
  | cdata (hmode : mode = .data) (hopening : "<![CDATA[".toList <+: c.rest) :
      Leaf o mode c (.cdata c)
  | unmatched (hmode : mode = .data) {name : String} {behind : Cursor}
      (hend : endTag? c = some (name, behind)) :
      Leaf o mode c (.unmatched name c behind)
  | interpolation (hmode : mode.allowsInterpolation = true)
      (hopening : ['{', '{'] <+: c.rest) : Leaf o mode c (.interpolation c)
  | text (hmode : mode ≠ .cdata) (hmarkup : mode = .data → NoMarkup c.rest)
      (hinline : mode.allowsInterpolation = true → ¬ ['{', '{'] <+: c.rest) :
      Leaf o mode c (.text o mode c)

theorem TextMode.allowsMarkup_iff {mode : TextMode} :
    mode.allowsMarkup = true ↔ mode = .data := by
  cases mode <;> simp [TextMode.allowsMarkup]

theorem TextMode.ofTag_ne_cdata (name : String) :
    TextMode.ofTag name ≠ .cdata := by
  have htable : ∀ entry ∈ TextMode.table, entry.2 ≠ .cdata := by decide
  unfold TextMode.ofTag
  cases hfind : TextMode.table.find? _ with
  | none => simp
  | some entry => exact htable entry (List.mem_of_find?_eq_some hfind)

theorem endsSiblings_eq {mode : TextMode} (hmode : mode ≠ .cdata)
    (opened : List String) (rest : List Char) :
    endsSiblings mode opened rest = endsContent opened rest :=
  if_neg hmode

theorem Siblings.endsText_eq {mode : TextMode} (hmode : mode ≠ .cdata)
    (cs : List Char) :
    Siblings.endsText mode cs = (['<'].isPrefixOf cs ||
      (mode.allowsInterpolation && ['{', '{'].isPrefixOf cs)) :=
  if_neg hmode

@[simp] theorem endsSiblings_cdata (opened : List String) (rest : List Char) :
    endsSiblings .cdata opened rest =
      (rest.isEmpty || "]]>".toList.isPrefixOf rest) :=
  if_pos rfl

/-- A text in a section goes to the end of the section. -/
theorem Siblings.textRun_cdata {cs : List Char}
    (h : "]]>".toList.isPrefixOf cs = false) :
    Siblings.textRun .cdata cs = takeUntil ("]]>".toList.isPrefixOf) cs := by
  cases cs with
  | nil => rfl
  | cons x more =>
      rw [takeUntil, h]
      simp only [Siblings.textRun, Bool.false_eq_true, if_false]
      congr 2

theorem Piece.read_cdata (o : ReadOptions) (c : Cursor) :
    Piece.read o .cdata c = .whole (.text o .cdata c) := by
  simp [Piece.read, TextMode.allowsMarkup, Siblings.inline,
    TextMode.allowsInterpolation]

/-- In a section there is no text, or the one up to its end.  The loop goes
round at most once. -/
theorem siblings_cdata (o : ReadOptions) (opened : List String) (c : Cursor) :
    siblings o .cdata opened c =
      let body := takeUntil "]]>".toList.isPrefixOf c.rest
      let next := c.advance body
      ⟨if body.isEmpty then [] else
        [.text (String.ofList body) (c.spanTo next) none], [], next⟩ := by
  cases hends : endsSiblings .cdata opened c.rest with
  | true =>
      have hbody : takeUntil "]]>".toList.isPrefixOf c.rest = [] := by
        rw [endsSiblings_cdata, Bool.or_eq_true] at hends
        cases hrest : c.rest with
        | nil => rfl
        | cons x more =>
            rw [takeUntil, if_pos]
            simpa [hrest] using hends
      rw [siblings_of_endsSiblings hends, hbody]
      rfl
  | false =>
      rw [siblings_of_not_endsSiblings hends]
      rw [endsSiblings_cdata, Bool.or_eq_false_iff] at hends
      have hrun := Siblings.textRun_cdata hends.2
      have hbody : takeUntil "]]>".toList.isPrefixOf c.rest ≠ [] := by
        cases hrest : c.rest with
        | nil => simp [hrest] at hends
        | cons x more =>
            rw [← hrest, ← hrun, hrest]
            simp [Siblings.textRun]
      have hnext : endsSiblings .cdata opened
          (Siblings.text o .cdata c).next.rest = true := by
        simp only [Siblings.text, hrun, Cursor.advance_rest, endsSiblings_cdata,
          Bool.or_eq_true, List.isEmpty_iff]
        exact (takeUntil_spec "]]>".toList.isPrefixOf c.rest).2
      simp only [Piece.read_cdata, Piece.complete,
        siblings_of_endsSiblings hnext]
      simp only [Siblings.text, Siblings.followedBy, hrun,
        List.isEmpty_eq_false_iff.mpr hbody]
      simp

/-- The section that the loop reads is the one read at once. -/
theorem Piece.complete_cdata (o : ReadOptions) (opened : List String)
    (c : Cursor) :
    (Piece.cdata (c.advance "<![CDATA[".toList)).complete o opened c
      (siblings o) =
      .cdata c := by
  simp only [Piece.complete, siblings_cdata, Siblings.inCdata, Siblings.cdata,
    Enclosed.read]
  split <;> simp

theorem NoMarkup.of_not_bracket {rest : List Char} (h : ¬ ['<'] <+: rest) :
    NoMarkup rest where
  comment := fun hbegins => h (List.IsPrefix.trans ⟨_, rfl⟩ hbegins)
  cdata := fun hbegins => h (List.IsPrefix.trans ⟨_, rfl⟩ hbegins)
  endTag := fun _ _ hbegins => h (List.IsPrefix.trans ⟨_, rfl⟩ hbegins)
  startTag := fun _ _ hbegins => h (List.IsPrefix.trans ⟨_, rfl⟩ hbegins)

theorem Leaf.of_inline {o : ReadOptions} {mode : TextMode} {c : Cursor}
    (hmode : mode ≠ .cdata) (hmarkup : mode = .data → NoMarkup c.rest) :
    Leaf o mode c (.inline o mode c) := by
  unfold Siblings.inline
  split
  · next h =>
      simp only [Bool.and_eq_true, List.isPrefixOf_iff_prefix] at h
      exact .interpolation h.1 h.2
  · next h =>
      simp only [Bool.and_eq_true, List.isPrefixOf_iff_prefix, not_and] at h
      exact .text hmode hmarkup h

theorem Piece.read_eq_whole {o : ReadOptions} {mode : TextMode} {c : Cursor}
    {item : Siblings} (hne : mode ≠ .cdata)
    (h : Piece.read o mode c = .whole item) : Leaf o mode c item := by
  unfold Piece.read at h
  split at h
  · next hmarkup =>
      have hmode := TextMode.allowsMarkup_iff.mp hmarkup
      split at h
      · next hopening =>
          cases h
          exact .comment hmode (List.isPrefixOf_iff_prefix.mp hopening)
      · next hcomment =>
          split at h
          · contradiction
          · next hcdata =>
              split at h
              · next hend =>
                  cases h
                  exact .unmatched hmode hend
              · next hend =>
                  split at h
                  · contradiction
                  · next hstart =>
                      cases h
                      apply Leaf.of_inline hne
                      intro _
                      simp only [List.isPrefixOf_iff_prefix] at hcomment hcdata
                      exact ⟨hcomment, hcdata, (endTag?_eq_none_iff c).mp hend,
                        (StartTag.read?_eq_none_iff c).mp hstart⟩
  · next hmarkup =>
      cases h
      apply Leaf.of_inline hne
      intro hmode
      exact absurd (TextMode.allowsMarkup_iff.mpr hmode) hmarkup

theorem Piece.read_eq_cdata {o : ReadOptions} {mode : TextMode}
    {c inside : Cursor} (h : Piece.read o mode c = .cdata inside) :
    mode = .data ∧ "<![CDATA[".toList <+: c.rest ∧
      inside = c.advance "<![CDATA[".toList := by
  unfold Piece.read at h
  split at h
  · next hmarkup =>
      refine ⟨TextMode.allowsMarkup_iff.mp hmarkup, ?_⟩
      split at h
      · contradiction
      · split at h
        · next hopening =>
            cases h
            exact ⟨List.isPrefixOf_iff_prefix.mp hopening, rfl⟩
        · split at h
          · contradiction
          · split at h <;> contradiction
  · contradiction

theorem Piece.read_eq_start {o : ReadOptions} {mode : TextMode} {c : Cursor}
    {tag : StartTag} (h : Piece.read o mode c = .start tag) :
    mode = .data ∧ StartTag.read? c = some tag := by
  unfold Piece.read at h
  split at h
  · next hmarkup =>
      refine ⟨TextMode.allowsMarkup_iff.mp hmarkup, ?_⟩
      split at h
      · contradiction
      · split at h
        · contradiction
        · split at h
          · contradiction
          · split at h
            · next hstart =>
                cases h
                exact hstart
            · contradiction
  · contradiction

theorem endTag?_eq_none_of_not_slash {c : Cursor}
    (h : ¬ ['<', '/'] <+: c.rest) : endTag? c = none := by
  rw [endTag?_eq_none_iff]
  intro x _ hbegins
  exact h (List.IsPrefix.trans ⟨_, rfl⟩ hbegins)

theorem Piece.read_of_startTag {o : ReadOptions} {c : Cursor} {tag : StartTag}
    (htag : StartTag.read? c = some tag) :
    Piece.read o .data c = .start tag := by
  obtain ⟨x, more, hrest, hx⟩ := StartTag.exists_letter htag
  have hslash : '/' ≠ x := (ne_of_isAlpha hx (by decide)).symm
  have hbang : '!' ≠ x := (ne_of_isAlpha hx (by decide)).symm
  have hend : endTag? c = none :=
    endTag?_eq_none_of_not_slash (by simp [hrest, hslash])
  simp [Piece.read, TextMode.allowsMarkup, hrest, hend, htag, hbang]

theorem Siblings.inline_of_brace (o : ReadOptions)
    {mode : TextMode} {c : Cursor} (hmode : mode.allowsInterpolation = true)
    (hopening : ['{', '{'] <+: c.rest) :
    Siblings.inline o mode c = .interpolation c := by
  simp only [Siblings.inline, hmode, List.isPrefixOf_iff_prefix.mpr hopening,
    Bool.and_self, if_true]

theorem Leaf.read_eq {o : ReadOptions} {mode : TextMode} {c : Cursor}
    {item : Siblings} (h : Leaf o mode c item) :
    Piece.read o mode c = .whole item ∨
      item = .cdata c ∧
        Piece.read o mode c = .cdata (c.advance "<![CDATA[".toList) := by
  cases h with
  | comment hmode hopening =>
      left
      simp only [Piece.read, TextMode.allowsMarkup_iff.mpr hmode,
        List.isPrefixOf_iff_prefix.mpr hopening, if_true]
  | cdata hmode hopening =>
      obtain ⟨more, hrest⟩ := hopening
      refine .inr ⟨rfl, ?_⟩
      simp [Piece.read, TextMode.allowsMarkup_iff.mpr hmode, ← hrest]
  | unmatched hmode hend =>
      left
      obtain ⟨spelled, rest, hrest, _⟩ := endTag?_eq_some hend
      simp [Piece.read, TextMode.allowsMarkup_iff.mpr hmode, hend, hrest]
  | interpolation hmode hopening =>
      left
      have hinline := Siblings.inline_of_brace o hmode hopening
      obtain ⟨more, hrest⟩ := hopening
      have hend : endTag? c = none :=
        endTag?_eq_none_of_not_slash (by simp [← hrest])
      have hstart : StartTag.read? c = none := by
        rw [StartTag.read?_eq_none_iff]
        intro x _ hbegins
        simp [← hrest] at hbegins
      simp [Piece.read, hinline, hend, hstart, ← hrest]
  | text _ hmarkup hinline =>
      left
      have htext : Siblings.inline o mode c = .text o mode c := by
        simp only [Siblings.inline, Bool.and_eq_true,
          List.isPrefixOf_iff_prefix]
        rw [if_neg]
        rintro ⟨hmode, hopening⟩
        exact hinline hmode hopening
      by_cases hmode : mode = .data
      · have hnone := hmarkup hmode
        simp only [Piece.read, List.isPrefixOf_iff_prefix,
          hnone.comment, hnone.cdata, (endTag?_eq_none_iff c).mpr hnone.endTag,
          (StartTag.read?_eq_none_iff c).mpr hnone.startTag, htext,
          if_false, ite_self]
      · simp only [Piece.read, TextMode.allowsMarkup_iff, hmode,
          htext, if_false]

theorem Leaf.complete_eq {o : ReadOptions} {mode : TextMode} {c : Cursor}
    {item : Siblings} (h : Leaf o mode c item) (opened : List String) :
    (Piece.read o mode c).complete o opened c (siblings o) = item := by
  rcases h.read_eq with hread | ⟨rfl, hread⟩
  · rw [hread, Piece.complete]
  · rw [hread, Piece.complete_cdata]

theorem Leaf.length_lt {o : ReadOptions} {mode : TextMode} {c : Cursor}
    {item : Siblings} (h : Leaf o mode c item) (hrest : c.rest ≠ []) :
    item.next.rest.length < c.rest.length := by
  rw [← h.complete_eq []]
  exact Piece.complete_length_lt (Piece.read_length_lt o mode hrest)
    (siblings_length_le o)

theorem Siblings.textRun_isPrefix (mode : TextMode) (cs : List Char) :
    Siblings.textRun mode cs <+: cs := by
  cases cs with
  | nil => exact List.nil_prefix
  | cons x more =>
      exact List.cons_prefix_cons.mpr ⟨rfl, takeUntil_isPrefix _ more⟩

theorem Siblings.text_leads (o : ReadOptions) (mode : TextMode) (c : Cursor) :
    c.Leads (Siblings.text o mode c).next :=
  Cursor.leads_advance (Siblings.textRun_isPrefix mode c.rest)

theorem Leaf.leads {o : ReadOptions} {mode : TextMode} {c : Cursor}
    {item : Siblings} (h : Leaf o mode c item) : c.Leads item.next := by
  cases h with
  | comment _ hopening => exact Enclosed.read_leads _ hopening
  | cdata _ hopening => exact Enclosed.read_leads _ hopening
  | unmatched _ hend => exact endTag?_leads hend
  | interpolation _ hopening => exact Enclosed.read_leads _ hopening
  | text => exact Siblings.text_leads o mode c

theorem ne_nil_of_endsContent {opened : List String} {rest : List Char}
    (h : endsContent opened rest = false) : rest ≠ [] := by
  rintro rfl
  simp [endsContent] at h

/-- Reading siblings outside CDATA sections, in a text mode and inside open
elements, from a cursor on. -/
inductive Reads (o : ReadOptions) :
    TextMode → List String → Cursor → Siblings → Prop where
  | ends {mode : TextMode} {opened : List String} {c : Cursor}
      (hend : endsContent opened c.rest = true) :
      Reads o mode opened c ⟨[], [], c⟩
  | leaf {mode : TextMode} {opened : List String} {c : Cursor}
      {item later : Siblings}
      (hgoes : endsContent opened c.rest = false) (hleaf : Leaf o mode c item)
      (hlater : Reads o mode opened item.next later) :
      Reads o mode opened c (item.followedBy later)
  /-- An element whose start tag ends it. -/
  | alone {opened : List String} {c : Cursor} {tag : StartTag}
      {later : Siblings}
      (hgoes : endsContent opened c.rest = false)
      (htag : StartTag.read? c = some tag)
      (hending : tag.ending ≠ .opened)
      (hlater : Reads o .data opened tag.next later) :
      Reads o .data opened c ((tag.alone c []).followedBy later)
  /-- An element that the nesting limit leaves without content. -/
  | tooDeep {opened : List String} {c : Cursor} {tag : StartTag}
      {later : Siblings}
      (hgoes : endsContent opened c.rest = false)
      (htag : StartTag.read? c = some tag)
      (hending : tag.ending = .opened) (hdeep : o.maxDepth ≤ opened.length)
      (hlater : Reads o .data opened tag.next later) :
      Reads o .data opened c
        ((tag.alone c [.nestingTooDeep tag.name o.maxDepth tag.span]).followedBy
          later)
  | element {opened : List String} {c : Cursor} {tag : StartTag}
      {inside later : Siblings}
      (hgoes : endsContent opened c.rest = false)
      (htag : StartTag.read? c = some tag)
      (hending : tag.ending = .opened) (hroom : opened.length < o.maxDepth)
      (hinside : Reads o (TextMode.ofTag tag.name)
        (tag.name :: opened) tag.next inside)
      (hlater : Reads o .data opened (tag.close inside.next).2 later) :
      Reads o .data opened c ((tag.around c inside).followedBy later)

theorem siblings_reads (o : ReadOptions) (mode : TextMode)
    (opened : List String) (c : Cursor) (hmode : mode ≠ .cdata := by simp) :
    Reads o mode opened c (siblings o mode opened c) := by
  -- every piece takes something off the front, so the induction is on what is
  -- ahead
  generalize hlength : c.rest.length = length
  induction length using Nat.strong_induction_on generalizing mode opened c with
  | h length ih =>
      subst hlength
      cases hends : endsContent opened c.rest with
      | true =>
          rw [siblings_of_endsSiblings (by rwa [endsSiblings_eq hmode])]
          exact .ends hends
      | false =>
          have hread :=
            Piece.read_length_lt o mode (ne_nil_of_endsContent hends)
          rw [siblings_of_not_endsSiblings (by rwa [endsSiblings_eq hmode])]
          cases hpiece : Piece.read o mode c with
          | whole item =>
              rw [hpiece] at hread
              exact .leaf hends (Piece.read_eq_whole hmode hpiece)
                (ih _ hread _ _ _ hmode rfl)
          | cdata inside =>
              obtain ⟨hdata, hopening, rfl⟩ := Piece.read_eq_cdata hpiece
              have hleaf : Leaf o mode c (.cdata c) := .cdata hdata hopening
              rw [Piece.complete_cdata]
              exact .leaf hends hleaf
                (ih _ (hleaf.length_lt (ne_nil_of_endsContent hends)) _
                  _ _ hmode rfl)
          | start tag =>
              rw [hpiece] at hread
              obtain ⟨rfl, htag⟩ := Piece.read_eq_start hpiece
              simp only [Piece.complete]
              split
              · next hending =>
                  exact .alone hends htag hending (ih _ hread _ _ _ hmode rfl)
              · next hending =>
                  simp only [ne_eq, not_not] at hending
                  split
                  · next hdeep =>
                      exact .tooDeep hends htag hending hdeep
                        (ih _ hread _ _ _ hmode rfl)
                  · next hroom =>
                      have hinside := siblings_length_le o
                        (TextMode.ofTag tag.name) (tag.name :: opened) tag.next
                      have hclosed := Nat.lt_of_le_of_lt
                        (Nat.le_trans (tag.close_length_le _) hinside) hread
                      exact .element hends htag hending (Nat.lt_of_not_le hroom)
                        (ih _ hread _ _ _ (TextMode.ofTag_ne_cdata _) rfl)
                        (ih _ hclosed _ _ _ hmode rfl)

/-- There is one way of reading from a place. -/
theorem Reads.eq_siblings {o : ReadOptions} {mode : TextMode}
    {opened : List String} {c : Cursor} {r : Siblings}
    (h : Reads o mode opened c r) (hmode : mode ≠ .cdata := by simp) :
    siblings o mode opened c = r := by
  induction h with
  | ends hend => exact siblings_of_endsSiblings (by rwa [endsSiblings_eq hmode])
  | leaf hgoes hleaf _ ih =>
      rw [siblings_of_not_endsSiblings (by rwa [endsSiblings_eq hmode])]
      simp only [hleaf.complete_eq, ih hmode]
  | alone hgoes htag hending _ ih =>
      rw [siblings_of_not_endsSiblings (by rwa [endsSiblings_eq hmode]),
        Piece.read_of_startTag htag]
      simp only [Piece.complete, ne_eq, hending, not_false_eq_true, if_true]
      exact congrArg _ (ih hmode)
  | tooDeep hgoes htag hending hdeep _ ih =>
      rw [siblings_of_not_endsSiblings (by rwa [endsSiblings_eq hmode]),
        Piece.read_of_startTag htag]
      simp only [Piece.complete, ne_eq, hending, not_true_eq_false, if_false,
        hdeep, if_true]
      exact congrArg _ (ih hmode)
  | element hgoes htag hending hroom _ _ ihinside ih =>
      rw [siblings_of_not_endsSiblings (by rwa [endsSiblings_eq hmode]),
        Piece.read_of_startTag htag]
      simp only [Piece.complete, ne_eq, hending, not_true_eq_false, if_false,
        Nat.not_le.mpr hroom, ihinside (TextMode.ofTag_ne_cdata _)]
      exact congrArg _ (ih hmode)

theorem Reads.leads {o : ReadOptions} {mode : TextMode} {opened : List String}
    {c : Cursor} {r : Siblings} (h : Reads o mode opened c r) :
    c.Leads r.next := by
  induction h with
  | ends => exact Cursor.Leads.refl _
  | leaf _ hleaf _ ih => exact hleaf.leads.trans ih
  | alone _ htag _ _ ih => exact (StartTag.read?_leads htag).trans ih
  | tooDeep _ htag _ _ _ ih => exact (StartTag.read?_leads htag).trans ih
  | element _ htag _ _ _ _ ihinside ih =>
      exact (StartTag.read?_leads htag).trans
        (ihinside.trans ((StartTag.close_leads _ _).trans ih))

/-- Reading stops where siblings end. -/
theorem Reads.endsContent_next {o : ReadOptions} {mode : TextMode}
    {opened : List String} {c : Cursor} {r : Siblings}
    (h : Reads o mode opened c r) : endsContent opened r.next.rest = true := by
  induction h with
  | ends hend => exact hend
  | leaf _ _ _ ih => exact ih
  | alone _ _ _ _ ih => exact ih
  | tooDeep _ _ _ _ _ ih => exact ih
  | element _ _ _ _ _ _ _ ih => exact ih

/-- Outside all elements reading goes on to the end of the source. -/
theorem Reads.next_eq_toEnd {o : ReadOptions} {mode : TextMode} {c : Cursor}
    {r : Siblings} (h : Reads o mode [] c r) : r.next = c.toEnd := by
  have hrest : r.next.rest = [] := by
    simpa [endsContent] using h.endsContent_next
  exact h.leads.eq_toEnd hrest

@[simp] theorem Note.diagnostic?_problem (d : Diagnostic) :
    (Note.problem d).diagnostic? = some d := rfl

@[simp] theorem Note.diagnostic?_startTag (name : String) (offset : Nat) :
    (Note.startTag name offset).diagnostic? = none := rfl

def Siblings.diagnostics (r : Siblings) : List Diagnostic :=
  r.notes.filterMap Note.diagnostic?

namespace Siblings

@[simp] theorem diagnostics_followedBy (first later : Siblings) :
    (first.followedBy later).diagnostics =
      first.diagnostics ++ later.diagnostics := by
  simp [diagnostics, followedBy]

@[simp] theorem nodes_followedBy (first later : Siblings) :
    (first.followedBy later).nodes = first.nodes ++ later.nodes := rfl

@[simp] theorem next_followedBy (first later : Siblings) :
    (first.followedBy later).next = later.next := rfl

theorem diagnostics_comment (c : Cursor) :
    (comment c).diagnostics =
      if (Enclosed.read "<!--".toList "-->".toList c).closed then []
      else [.unterminatedComment (c.spanTo (comment c).next)] := by
  simp only [diagnostics, comment]
  split <;> rfl

theorem diagnostics_cdata (c : Cursor) :
    (cdata c).diagnostics =
      if (Enclosed.read "<![CDATA[".toList "]]>".toList c).closed then []
      else [.unterminatedCdata (c.spanTo (cdata c).next)] := by
  simp only [diagnostics, cdata]
  split <;> rfl

theorem diagnostics_interpolation (c : Cursor) :
    (interpolation c).diagnostics =
      if (Enclosed.read ['{', '{'] ['}', '}'] c).closed then []
      else [.unterminatedInterpolation (c.spanTo (interpolation c).next)] := by
  simp only [diagnostics, interpolation]
  split <;> rfl

end Siblings

namespace StartTag

@[simp] theorem diagnostics_alone (tag : StartTag) (start : Cursor)
    (problems : List Diagnostic) :
    (tag.alone start problems).diagnostics = tag.problems ++ problems := by
  simp [alone, notes, Siblings.diagnostics, List.filterMap_cons,
    Function.comp_def]

@[simp] theorem diagnostics_around (tag : StartTag) (start : Cursor)
    (inside : Siblings) :
    (tag.around start inside).diagnostics =
      tag.problems ++ inside.diagnostics ++ (tag.close inside.next).1 := by
  simp [around, notes, Siblings.diagnostics, List.filterMap_cons,
    Function.comp_def]

end StartTag

def Diagnostic.isUnmatched : Diagnostic → Bool
  | unmatchedClosingTag .. => true
  | _ => false

theorem TagRest.read_not_unmatched (pending : Option (Lexeme String))
    (c : Cursor) :
    ∀ d ∈ (TagRest.read pending c).problems, d.isUnmatched = false := by
  fun_induction TagRest.read pending c with
  | case2 _ _ _ _ _ _ _ ih => exact ih
  | case4 _ _ _ _ _ _ _ _ _ _ ih => exact ih
  | case5 _ _ _ _ _ _ _ _ _ _ ih => exact ih
  | case6 =>
      simp only [TagRest.afterOpenQuote]
      split <;> simp [Diagnostic.isUnmatched]
  | case12 _ _ _ _ _ ih => exact ih
  | _ => simp

namespace StartTag

theorem filter_problems {c : Cursor} {tag : StartTag}
    (h : StartTag.read? c = some tag) :
    tag.problems.filter Diagnostic.isUnmatched = [] := by
  obtain ⟨_, _, _, _, _, _, _, _, _, _, hproblems⟩ := StartTag.read?_eq_some h
  rw [hproblems, List.filter_append, List.filter_eq_nil_iff.mpr,
    List.nil_append]
  · split <;> simp [Diagnostic.isUnmatched]
  · intro d hd
    simp [TagRest.read_not_unmatched none _ d hd]

theorem filter_close (tag : StartTag) (d : Cursor) :
    (tag.close d).1.filter Diagnostic.isUnmatched = [] := by
  unfold StartTag.close
  split <;> simp [Diagnostic.isUnmatched]

end StartTag

theorem Template.read_of_reads {o : ReadOptions} {source : String}
    {r : Siblings} (h : Reads o .data [] (Cursor.start source.toList) r) :
    (Template.read o source).root =
      .root r.nodes ⟨0, byteLength source.toList⟩ none ∧
      (Template.read o source).diagnostics = r.diagnostics := by
  rw [Template.read, h.eq_siblings]
  exact ⟨rfl, rfl⟩

end MarkupTemplate
