/-
How every element is closed, and which problems say that one is not.  A report
of an element belongs to it alone, and what looks like an end tag inside the
content of an element lies in a child or in an end tag that closes nothing.
-/
import MarkupTemplate.Proofs.Origin

namespace MarkupTemplate

/-- Whether a problem reports this element as not properly closed: it has the
tag and the beginning of the element. -/
def Diagnostic.names (d : Diagnostic) (e : Node) : Bool :=
  d.isUnclosed && d.unclosed? == e.label? && d.span.start == e.span.start

def Node.isSelfClosing : Node → Bool
  | element _ _ _ selfClosing _ _ => selfClosing
  | _ => false

structure Node.BeginsWith (source : Cursor) (e : Node)
    (tag : StartTag) : Prop where
  startTag : ∃ c, source.Leads c ∧ c.offset = e.span.start ∧
    StartTag.read? c = some tag
  element : e = tag.element e.children e.span

/-- The ways in which an element comes to its end. -/
inductive Closing where
  | selfClosing
  | endTag
  | reported
  | openQuote

/-- An element with its start tag comes to its end in this way.  Its end tag
stands behind its start tag and its children, and is no part of an end tag that
closes nothing. -/
def Closing.Of (source : Cursor) (diagnostics : List Diagnostic) (e : Node)
    (tag : StartTag) : Closing → Prop
  | selfClosing => e.isSelfClosing = true
  | endTag => ∃ d name next, source.Leads d ∧ endTag? d = some (name, next) ∧
      next.offset = e.span.stop ∧ foldCase name = foldCase tag.name ∧
      tag.span.stop ≤ d.offset ∧
      (∀ child ∈ e.children, child.span.stop ≤ d.offset) ∧
      ∀ p ∈ diagnostics, p.isUnmatched = true → ¬ p.span.Holds d.offset
  | reported => ∃ d, diagnostics.filter (·.names e) = [d]
  | openQuote => ∃ q name, source.Leads q ∧ tag.span.Holds q.offset ∧
      OpensQuote q.rest ∧ '>' ∉ q.rest ∧
      .missingAttributeQuote name (q.spanTo q.toEnd) ∈ diagnostics ∧
      e.span.stop = source.toEnd.offset

/-- A node or an end tag that closes nothing lies over this offset. -/
def Siblings.Covers (r : Siblings) (offset : Nat) : Prop :=
  (∃ n ∈ r.nodes, n.span.Holds offset) ∨
    ∃ d ∈ r.diagnostics, d.isUnmatched = true ∧ d.span.Holds offset

namespace Siblings.Covers

variable {first later : Siblings} {offset : Nat}

theorem followedBy_left (h : first.Covers offset) :
    (first.followedBy later).Covers offset := by
  refine h.imp ?_ ?_
  · rintro ⟨n, hn, hholds⟩
    exact ⟨n, List.mem_append_left _ hn, hholds⟩
  · rintro ⟨d, hd, hholds⟩
    rw [Siblings.diagnostics_followedBy]
    exact ⟨d, List.mem_append_left _ hd, hholds⟩

theorem followedBy_right (h : later.Covers offset) :
    (first.followedBy later).Covers offset := by
  refine h.imp ?_ ?_
  · rintro ⟨n, hn, hholds⟩
    exact ⟨n, List.mem_append_right _ hn, hholds⟩
  · rintro ⟨d, hd, hholds⟩
    rw [Siblings.diagnostics_followedBy]
    exact ⟨d, List.mem_append_right _ hd, hholds⟩

end Siblings.Covers

section

variable {o : ReadOptions} {mode : TextMode} {c d : Cursor}

/-- A run over the beginning of an end tag has its bracket. -/
theorem bracket_mem_of_slash {run : List Char} (hd : c.Leads d)
    (hrun : run <+: c.rest) (hlt : d.offset < c.offset + byteLength run)
    (hslash : ['<', '/'] <+: d.rest) : '<' ∈ run := by
  obtain ⟨later, hne, hsuffix, hahead⟩ := hd.exists_suffix hrun hlt
  cases later with
  | nil => exact absurd rfl hne
  | cons x more =>
      obtain ⟨rest, hrest⟩ := hslash
      rw [← hrest] at hahead
      have hx : x = '<' := (List.cons_prefix_cons.mp hahead).1
      exact hx ▸ hsuffix.mem List.mem_cons_self

theorem not_slash_of_cdata (hd : c.Leads d)
    (hopening : "<![CDATA[".toList <+: c.rest)
    (hlt : d.offset < c.offset + byteLength "<![CDATA[".toList) :
    ¬ ['<', '/'] <+: d.rest := by
  rintro ⟨rest, hrest⟩
  obtain ⟨later, hne, hsuffix, hahead⟩ := hd.exists_suffix hopening hlt
  rw [← hrest] at hahead
  have hmarker : "<![CDATA[".toList =
      ['<', '!', '[', 'C', 'D', 'A', 'T', 'A', '['] := by simp
  simp only [hmarker, List.suffix_cons_iff, List.suffix_nil] at hsuffix
  rcases hsuffix with rfl | rfl | rfl | rfl | rfl | rfl | rfl |
    rfl | rfl | rfl <;>
    simp at hahead hne

theorem Siblings.text_covers (hd : c.Leads d)
    (hlt : d.offset < (Siblings.text o mode c).next.offset)
    (hslash : ['<', '/'] <+: d.rest) :
    (Siblings.text o mode c).Covers d.offset := by
  have hbracket : '<' ∈ Siblings.textRun mode c.rest :=
    bracket_mem_of_slash hd (Siblings.textRun_isPrefix mode c.rest) hlt hslash
  have hkept : ∃ content, (if mode = .data ∧ o.whitespace = .condense then
      condense (Siblings.textRun mode c.rest)
      else some (Siblings.textRun mode c.rest)) = some content := by
    split
    · have hfull : (Siblings.textRun mode c.rest).all isBlank = false :=
        List.all_eq_false.mpr ⟨'<', hbracket, by decide⟩
      exact ⟨collapseFrom false (Siblings.textRun mode c.rest),
        by simp [condense, hfull]⟩
    · exact ⟨_, rfl⟩
  obtain ⟨content, hcontent⟩ := hkept
  refine Or.inl
    ⟨.text (String.ofList content)
      (c.spanTo (Siblings.text o mode c).next) none, ?_,
    hd.offset_le, hlt⟩
  simp [Siblings.text, hcontent]

theorem Siblings.cdata_covers (hopening : "<![CDATA[".toList <+: c.rest)
    (hd : c.Leads d) (hlt : d.offset < (Siblings.cdata c).next.offset)
    (hslash : ['<', '/'] <+: d.rest) : (Siblings.cdata c).Covers d.offset := by
  have hinside := Cursor.leads_advance hopening
  have hbody := Enclosed.leads_body "<![CDATA[".toList "]]>".toList c
  have hnext := Enclosed.next_eq "<![CDATA[".toList "]]>".toList c
  have hrest := Enclosed.rest_eq "]]>".toList hopening
  simp only [Siblings.cdata] at hlt hbody hnext hrest ⊢
  generalize Enclosed.read "<![CDATA[".toList "]]>".toList c = e at *
  have hopen : (c.advance "<![CDATA[".toList).offset ≤ d.offset := by
    by_contra hbefore
    exact not_slash_of_cdata hd hopening (Nat.lt_of_not_le hbefore) hslash
  by_cases hin : d.offset <
      ((c.advance "<![CDATA[".toList).advance e.body).offset
  · have hfull : ¬ e.body.isEmpty = true := by
      intro hempty
      rw [List.isEmpty_iff.mp hempty, Cursor.advance_offset,
        byteLength_nil] at hin
      omega
    rw [if_neg hfull]
    exact Or.inl ⟨_, List.mem_singleton_self _, hopen, hin⟩
  · have hafter := (hinside.trans hbody).of_offset_le hd (Nat.le_of_not_lt hin)
    -- only the closing marker is left, and no tag begins in it
    by_cases hclosed : e.closed = true
    · rw [if_pos hclosed] at hnext hrest
      have hahead : "]]>".toList <+:
          ((c.advance "<![CDATA[".toList).advance e.body).rest :=
        ⟨e.next.rest, by simp [hrest]⟩
      rw [hnext, Cursor.advance_offset] at hlt
      have hbracket := bracket_mem_of_slash hafter hahead hlt hslash
      simp at hbracket
    · rw [if_neg hclosed] at hnext
      exact absurd (hnext ▸ hlt) hin

theorem Leaf.covers {item : Siblings} (h : Leaf o mode c item) (hd : c.Leads d)
    (hlt : d.offset < item.next.offset) (hslash : ['<', '/'] <+: d.rest) :
    item.Covers d.offset := by
  have hwhole : (c.spanTo item.next).Holds d.offset := ⟨hd.offset_le, hlt⟩
  cases h with
  | comment => exact Or.inl ⟨_, List.mem_singleton_self _, hwhole⟩
  | cdata _ hopening => exact Siblings.cdata_covers hopening hd hlt hslash
  | unmatched => exact Or.inr ⟨_, List.mem_singleton_self _, rfl, hwhole⟩
  | interpolation => exact Or.inl ⟨_, List.mem_singleton_self _, hwhole⟩
  | text => exact Siblings.text_covers hd hlt hslash

/-- Where an end tag seems to begin inside a run of siblings, it lies in one of
the nodes or in an end tag that closes nothing. -/
theorem Reads.covers {opened : List String} {r : Siblings}
    (h : Reads o mode opened c r) (hd : c.Leads d)
    (hlt : d.offset < r.next.offset) (hslash : ['<', '/'] <+: d.rest) :
    r.Covers d.offset := by
  -- the offset lies in the first item, or reading goes on in front of it
  have hstep : ∀ {c : Cursor} {item later : Siblings}, c.Leads d →
      c.Leads item.next →
      (d.offset < item.next.offset → item.Covers d.offset) →
      (item.next.Leads d → d.offset < later.next.offset →
        later.Covers d.offset) →
      d.offset < later.next.offset →
      (item.followedBy later).Covers d.offset := by
    intro c item later hd hnext hfirst hlater hlt
    by_cases hhere : d.offset < item.next.offset
    · exact (hfirst hhere).followedBy_left
    · exact (hlater (hnext.of_offset_le hd (Nat.le_of_not_lt hhere))
        hlt).followedBy_right
  induction h with
  | ends => exact absurd hd.offset_le (Nat.not_le.mpr hlt)
  | leaf _ hleaf _ ih =>
      exact hstep hd hleaf.leads
        (fun hhere => hleaf.covers hd hhere hslash) ih hlt
  | alone _ htag _ _ ih =>
      refine hstep hd (StartTag.read?_leads htag) (fun hhere => ?_) ih hlt
      refine Or.inl ⟨_, List.mem_singleton_self _, ?_⟩
      simp only [StartTag.element, Node.span, StartTag.span_eq htag]
      exact ⟨hd.offset_le, hhere⟩
  | tooDeep _ htag _ _ _ ih =>
      refine hstep hd (StartTag.read?_leads htag) (fun hhere => ?_) ih hlt
      refine Or.inl ⟨_, List.mem_singleton_self _, ?_⟩
      simp only [StartTag.element, Node.span, StartTag.span_eq htag]
      exact ⟨hd.offset_le, hhere⟩
  | @element _ _ tag inside _ _ htag _ _ hinside _ _ ih =>
      have hnext := (StartTag.read?_leads htag).trans
        (hinside.leads.trans (tag.close_leads inside.next))
      exact hstep hd hnext
        (fun hhere =>
          Or.inl ⟨_, List.mem_singleton_self _, hd.offset_le, hhere⟩) ih hlt

end

/-- How an element comes to its end, as told by its start tag and the problems
found at it. -/
def Origin.Fits (x : Origin) : Closing → Prop
  | .selfClosing =>
      x.tag.ending = .selfClosing ∧ x.problems.filter Diagnostic.isUnclosed = []
  | .endTag =>
      x.tag.ending = .opened ∧ x.problems.filter Diagnostic.isUnclosed = []
  | .reported => x.problems.filter Diagnostic.isUnclosed ≠ []
  | .openQuote =>
      x.tag.ending = .cut ∧ x.problems.filter Diagnostic.isUnclosed = []

theorem Origin.existsUnique_fits (x : Origin) : ∃! closing, x.Fits closing := by
  by_cases hnone : x.problems.filter Diagnostic.isUnclosed = []
  · cases hending : x.tag.ending with
    | opened =>
        refine ⟨.endTag, ⟨hending, hnone⟩, fun closing hfits => ?_⟩
        cases closing <;> simp_all [Origin.Fits]
    | selfClosing =>
        refine ⟨.selfClosing, ⟨hending, hnone⟩, fun closing hfits => ?_⟩
        cases closing <;> simp_all [Origin.Fits]
    | cut =>
        refine ⟨.openQuote, ⟨hending, hnone⟩, fun closing hfits => ?_⟩
        cases closing <;> simp_all [Origin.Fits]
  · refine ⟨.reported, hnone, fun closing hfits => ?_⟩
    cases closing with
    | reported => rfl
    | _ => exact absurd hfits.2 hnone

namespace Origin.Read

variable {o : ReadOptions} {x : Origin}

/-- The problems of its tags that name an element are those that say that it is
not closed. -/
theorem names_element (h : x.Read o) {d : Diagnostic} (hd : d ∈ x.problems) :
    d.names x.element = d.isUnclosed := by
  cases hunclosed : d.isUnclosed with
  | false => simp [Diagnostic.names, hunclosed]
  | true =>
      obtain ⟨hname, hspan⟩ := h.unclosed_of_mem hd hunclosed
      simp [Diagnostic.names, hunclosed, hname, hspan, h.span_start,
        Origin.element, StartTag.element, Node.label?, Node.span, Cursor.spanTo]

theorem not_names_of_start_ne (h : x.Read o) {d : Diagnostic}
    (hd : d ∈ x.problems) {e : Node} (hne : x.start.offset ≠ e.span.start) :
    d.names e = false := by
  cases hunclosed : d.isUnclosed with
  | false => simp [Diagnostic.names, hunclosed]
  | true =>
      have hspan := (h.unclosed_of_mem hd hunclosed).2
      simp [Diagnostic.names, hspan, h.span_start, hne]

end Origin.Read

namespace Tally

variable {o : ReadOptions} {c : Cursor} {r : Siblings}
  {origins : List Origin} {x : Origin}

/-- A problem that says that an element is not closed names that element
only. -/
theorem filter_elements (h : Tally o c r origins) (hx : x ∈ origins)
    {d : Diagnostic} (hd : d ∈ x.problems) (hunclosed : d.isUnclosed = true) :
    (origins.map Origin.element).filter (d.names ·) = [x.element] := by
  obtain ⟨before, after, hsplit, hne⟩ := h.exists_start_ne hx
  have hothers : ∀ y ∈ before ++ after, d.names y.element = false := fun y hy =>
    (h.read x hx).not_names_of_start_ne hd (hne y hy).2.symm
  have hthis : d.names x.element = true := by
    rw [(h.read x hx).names_element hd, hunclosed]
  have hnone : ∀ ys : List Origin, ys ⊆ before ++ after →
      (ys.map Origin.element).filter (d.names ·) = [] := by
    intro ys hys
    rw [List.filter_map, List.map_eq_nil_iff, List.filter_eq_nil_iff]
    exact fun y hy => by simp [hothers y (hys hy)]
  rw [hsplit, List.map_append, List.map_cons, List.filter_append,
    List.filter_cons_of_pos hthis, hnone before (List.subset_append_left _ _),
    hnone after (List.subset_append_right _ _), List.nil_append]

/-- The problems that name an element are those found at it. -/
theorem filter_names (h : Tally o c r origins) (hx : x ∈ origins) :
    r.diagnostics.filter (·.names x.element) =
      x.problems.filter Diagnostic.isUnclosed := by
  obtain ⟨before, after, hsplit, hne⟩ := h.exists_start_ne hx
  have hthis : x.problems.filter (·.names x.element) =
      x.problems.filter Diagnostic.isUnclosed :=
    List.filter_congr fun d hd => (h.read x hx).names_element hd
  have hnone : ∀ ys : List Origin, ys ⊆ before ++ after →
      (ys.flatMap Origin.problems).filter (·.names x.element) = [] := by
    intro ys hys
    rw [List.filter_eq_nil_iff]
    intro d hd
    obtain ⟨y, hy, hd⟩ := List.mem_flatMap.mp hd
    obtain ⟨hmem, hstart⟩ := hne y (hys hy)
    simp [(h.read y hmem).not_names_of_start_ne hd (e := x.element) hstart]
  have hfound : (origins.flatMap Origin.problems).filter (·.names x.element) =
      x.problems.filter Diagnostic.isUnclosed := by
    rw [hsplit, List.flatMap_append, List.flatMap_cons, List.filter_append,
      List.filter_append, hnone before (List.subset_append_left _ _),
      hnone after (List.subset_append_right _ _), hthis, List.nil_append,
      List.append_nil]
  have hunclosed : ∀ d : Diagnostic, d.names x.element = true →
      d.isUnclosed = true := by
    intro d hd
    simp only [Diagnostic.names, Bool.and_eq_true] at hd
    exact hd.1.1
  have hperm := h.problems.filter (·.names x.element)
  rw [hfound, Diagnostic.filter_isTagProblem hunclosed] at hperm
  rcases (h.read x hx).unclosed_cases with hnil | ⟨d, hone, _⟩
  · rw [hnil] at hperm ⊢
    exact hperm.nil_eq.symm
  · rw [hone] at hperm ⊢
    exact List.perm_singleton.mp hperm.symm

/-- No two elements that are reported as not closed begin at one place. -/
theorem nodup_starts (h : Tally o c r origins) :
    ((r.diagnostics.filter Diagnostic.isUnclosed).map
      (·.span.start)).Nodup := by
  have hperm := (h.problems.filter Diagnostic.isUnclosed).map (·.span.start)
  rw [Diagnostic.filter_isTagProblem (fun _ hd => hd), List.filter_flatMap,
    List.map_flatMap] at hperm
  rw [← hperm.nodup_iff, List.nodup_flatMap]
  have hstarts : ∀ y ∈ origins,
      ∀ n ∈ (y.problems.filter Diagnostic.isUnclosed).map (·.span.start),
      n = y.start.offset := by
    intro y hy n hn
    obtain ⟨d, hd, rfl⟩ := List.mem_map.mp hn
    obtain ⟨hd, hunclosed⟩ := List.mem_filter.mp hd
    rw [((h.read y hy).unclosed_of_mem hd hunclosed).2,
      (h.read y hy).span_start]
  constructor
  · intro y hy
    rcases (h.read y hy).unclosed_cases with hnil | ⟨d, hone, _⟩
    · simp [hnil]
    · simp [hone]
  · refine h.apart.imp_of_mem fun {y z} hy hz hapart => ?_
    have hlt := (h.read y hy).offset_lt
    intro n hn hn'
    have hny := hstarts y hy n hn
    have hnz := hstarts z hz n hn'
    omega

/-- Only an element that is opened and not reported ends with its end tag. -/
theorem of_endTag (h : Tally o c r origins) (hx : x ∈ origins)
    (hclosing : Closing.endTag.Of c r.diagnostics x.element x.tag) :
    x.tag.ending = .opened ∧ x.problems.filter Diagnostic.isUnclosed = [] := by
  obtain ⟨d, name, next, hd, hend, hstop, hfold, hbehind, hchildren, hstrays⟩ :=
    hclosing
  have hadvance := (endTag?_leads hend).offset_lt (endTag?_length_lt hend)
  have hread := h.read x hx
  have hinner := h.inside x hx
  have hahead : x.tag.next.Leads d := by
    rw [hread.span_stop] at hbehind
    exact ((h.start x hx).trans
      (StartTag.read?_leads hread.startTag)).of_offset_le hd hbehind
  have hstop : next.offset = x.next.offset := hstop
  have hbefore : d.offset < x.next.offset := hstop ▸ hadvance
  cases hread with
  | alone => exact absurd hahead.offset_le (Nat.not_le.mpr hbefore)
  | tooDeep => exact absurd hahead.offset_le (Nat.not_le.mpr hbefore)
  | @around _ tag _ inside htag hending hinside =>
      refine ⟨hending, ?_⟩
      by_cases hopens : opensEndTag tag.name inside.next.rest = true
      · simp [StartTag.close, hopens,
          StartTag.filter_isUnclosed htag (by simp [hending])]
      · -- without the end tag of the element the content goes on to the end of
        -- the element
        simp only [StartTag.close, hopens] at hbefore
        obtain ⟨spelled, rest, hrest, _⟩ := endTag?_eq_some hend
        rcases hinside.covers hahead hbefore ⟨spelled ++ rest, hrest.symm⟩ with
          ⟨n, hn, hholds⟩ | ⟨p, hp, hstray, hholds⟩
        · exact absurd hholds.2 (Nat.not_lt.mpr (hchildren n hn))
        · exact absurd hholds (hstrays p (hinner hp) hstray)

theorem endTag_of (h : Tally o c r origins) (hx : x ∈ origins)
    (hopened : x.tag.ending = .opened)
    (hnone : x.problems.filter Diagnostic.isUnclosed = []) :
    Closing.endTag.Of c r.diagnostics x.element x.tag := by
  have hread := h.read x hx
  have hleads := (h.start x hx).trans (StartTag.read?_leads hread.startTag)
  have hstop := hread.span_stop
  have hstrays := h.endTags x hx
  cases hread with
  | alone _ hending => exact absurd hopened hending
  | tooDeep => simp [Diagnostic.isUnclosed, Diagnostic.unclosed?] at hnone
  | @around _ tag _ inside htag hending hinside =>
      by_cases hopens : opensEndTag tag.name inside.next.rest = true
      · obtain ⟨name, next, hend, hfold⟩ :=
          endTag?_of_opensEndTag (StartTag.isTagName_name htag) hopens
        have hnext : (tag.close inside.next).2 = next := by
          simp [StartTag.close, hopens, hend]
        have hadvance := (endTag?_leads hend).offset_lt (endTag?_length_lt hend)
        obtain ⟨_, hcontent⟩ := hinside.tally
        simp only [hnext] at hstrays ⊢
        exact ⟨inside.next, name, next, hleads.trans hinside.leads,
          hend, rfl, hfold, by rw [hstop]; exact hinside.leads.offset_le,
          hcontent.nodes, hstrays hadvance⟩
      · simp [StartTag.close, hopens, Diagnostic.isUnclosed,
          Diagnostic.unclosed?] at hnone

/-- Only an element whose start tag breaks off without being reported has an
open quote with no bracket behind it. -/
theorem of_openQuote (h : Tally o c r origins) (hx : x ∈ origins)
    (hclosing : Closing.openQuote.Of c r.diagnostics x.element x.tag) :
    x.tag.ending = .cut ∧ x.problems.filter Diagnostic.isUnclosed = [] := by
  obtain ⟨q, name, hq, hholds, _, hbracket, hmem, _⟩ := hclosing
  have hread := h.read x hx
  have hcut : x.tag.ending = .cut := by
    by_contra hending
    obtain ⟨d, hd, hrest, hnext⟩ :=
      StartTag.exists_bracket hread.startTag hending
    have hbefore := hholds.2
    rw [hread.span_stop] at hbefore
    have hahead : q.Leads d :=
      hq.of_offset_le ((h.start x hx).trans hd) (by omega)
    exact hbracket (hahead.suffix.mem (by simp [hrest]))
  refine ⟨hcut, ?_⟩
  -- the quote was reported with an element whose start tag holds it, and that
  -- is this one
  have hfound : .missingAttributeQuote name (q.spanTo q.toEnd) ∈
      r.diagnostics.filter Diagnostic.isTagProblem :=
        List.mem_filter.mpr ⟨hmem, rfl⟩
  obtain ⟨y, hy, hproblem⟩ :=
    List.mem_flatMap.mp (h.problems.mem_iff.mpr hfound)
  obtain ⟨hquote, hyholds⟩ := (h.read y hy).quote_of_mem hproblem
  obtain rfl := h.eq_of_holds hx hy hholds hyholds
  rw [(hread.of_not_opened (by simp [hcut])).2, hquote]
  rfl

theorem openQuote_of (h : Tally o c r origins) (hx : x ∈ origins)
    (hcut : x.tag.ending = .cut)
    (hnone : x.problems.filter Diagnostic.isUnclosed = []) :
    Closing.openQuote.Of c r.diagnostics x.element x.tag := by
  have hread := h.read x hx
  obtain ⟨hnext, hproblems⟩ := hread.of_not_opened (by simp [hcut])
  rcases StartTag.problems_cases hread.startTag with
    ⟨_, hending⟩ | ⟨hbroken, _⟩ |
    ⟨name, q, hquote, hleads, hopens, hinside, hrest⟩
  · exact absurd hcut hending
  · rw [hproblems, hbroken] at hnone
    simp [Diagnostic.isUnclosed, Diagnostic.unclosed?] at hnone
  · have hq := (h.start x hx).trans hleads
    obtain ⟨hbracket, hend⟩ := hrest hcut
    have hmem : .missingAttributeQuote name (q.spanTo q.toEnd) ∈
        origins.flatMap Origin.problems :=
      List.mem_flatMap.mpr ⟨x, hx, by simp [hproblems, hquote]⟩
    refine ⟨q, name, hq, ?_, hopens, hbracket,
      List.mem_of_mem_filter (h.problems.mem_iff.mp hmem), ?_⟩
    · rw [Span.Holds, hread.span_start, hread.span_stop]
      exact ⟨hleads.offset_le, hinside⟩
    · rw [← hq.end_eq, ← hend, ← hnext]
      rfl

theorem of_iff_fits (h : Tally o c r origins) (hx : x ∈ origins)
    (closing : Closing) :
    closing.Of c r.diagnostics x.element x.tag ↔ x.Fits closing := by
  have hread := h.read x hx
  cases closing with
  | selfClosing =>
      have hself : x.element.isSelfClosing = true ↔
          x.tag.ending = .selfClosing := by
        simp [Origin.element, StartTag.element, Node.isSelfClosing]
      refine hself.trans ⟨fun hending => ⟨hending, ?_⟩, And.left⟩
      rw [(hread.of_not_opened (by simp [hending])).2]
      exact StartTag.filter_isUnclosed hread.startTag (by simp [hending])
  | endTag =>
      exact ⟨h.of_endTag hx, fun hfits => h.endTag_of hx hfits.1 hfits.2⟩
  | reported =>
      rw [Closing.Of, h.filter_names hx]
      rcases hread.unclosed_cases with hnil | ⟨d, hone, _⟩
      · simp [Origin.Fits, hnil]
      · simp [Origin.Fits, hone]
  | openQuote =>
      exact ⟨h.of_openQuote hx, fun hfits => h.openQuote_of hx hfits.1 hfits.2⟩

theorem beginsWith (h : Tally o c r origins) (hx : x ∈ origins) :
    x.element.BeginsWith c x.tag :=
  ⟨⟨x.start, h.start x hx, rfl, (h.read x hx).startTag⟩, rfl⟩

end Tally

/-- The problems account for the elements that are not properly closed.  Each
report of such an element has the tag and the beginning of one element and lies
on its start tag, and no two begin at one place.  Every element closes itself,
ends with its end tag, is reported once, or has a quote in its start tag that is
never closed with no bracket behind it. -/
theorem Template.read_accounts (o : ReadOptions) (source : String) :
    let t := Template.read o source
    let begins := Cursor.start source.toList
    let elements := Node.elements (t.root.preorder 0)
    (∀ d ∈ t.diagnostics, d.isUnclosed = true →
      ∃ e tag, elements.filter (d.names ·) = [e] ∧
      e.BeginsWith begins tag ∧ d.span = tag.span) ∧
    ((t.diagnostics.filter Diagnostic.isUnclosed).map (·.span.start)).Nodup ∧
    ∀ e ∈ elements, ∃ tag, e.BeginsWith begins tag ∧
      ∃! closing : Closing, closing.Of begins t.diagnostics e tag := by
  intro t begins elements
  have hreads := siblings_reads o .data [] begins
  obtain ⟨hroot, hdiagnostics⟩ := Template.read_of_reads hreads
  obtain ⟨origins, htally⟩ := hreads.tally
  have helements : elements = origins.map Origin.element := by
    rw [htally.elements 1]
    simp only [elements]
    rw [show t.root = _ from hroot]
    rfl
  rw [show t.diagnostics = _ from hdiagnostics, helements]
  refine ⟨fun d hd hunclosed => ?_, htally.nodup_starts, fun e he => ?_⟩
  · have hproblem :=
      List.mem_filter.mpr ⟨hd, Diagnostic.isTagProblem_of_isUnclosed hunclosed⟩
    obtain ⟨x, hx, hd⟩ :=
      List.mem_flatMap.mp (htally.problems.mem_iff.mpr hproblem)
    exact ⟨x.element, x.tag, htally.filter_elements hx hd hunclosed,
      htally.beginsWith hx, ((htally.read x hx).unclosed_of_mem hd hunclosed).2⟩
  · obtain ⟨x, hx, rfl⟩ := List.mem_map.mp he
    refine ⟨x.tag, htally.beginsWith hx, ?_⟩
    simp only [htally.of_iff_fits hx]
    exact x.existsUnique_fits

-- what looks like the end tag of `a` is part of an end tag that closes nothing
example : (Template.read {} "<a></b '</a>").diagnostics =
    [.unmatchedClosingTag "b" ⟨3, 12⟩, .missingClosingTag "a" ⟨0, 3⟩] := by
  decide +kernel

end MarkupTemplate
