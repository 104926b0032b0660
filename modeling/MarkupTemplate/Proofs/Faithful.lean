/-
What the leaves of a tree hold.  A text holds the characters at its place, and
an interpolation, a comment or a CDATA section what stands between its markers,
up to the first closing marker or, if there is none, to the end of the source.
It is reported just then, since no other place of the source has its offset.
-/
import MarkupTemplate.Proofs.Listing
import MarkupTemplate.Proofs.Quiet
import MarkupTemplate.Proofs.Unterminated

namespace MarkupTemplate

/-- The characters of the source at a stretch are these. -/
def Span.Shows (s : Span) (source : String) (text : List Char) : Prop :=
  ∃ front back, source.toList = front ++ text ++ back ∧
    s = ⟨byteLength front, byteLength (front ++ text)⟩

/-- A stretch of the source that opens with a marker goes to the first closing
marker behind it.  The source may end before there is one, if that is
`reported`. -/
def Span.Encloses (s : Span) (source : String)
    (opening closing body : List Char) (reported : Prop) : Prop :=
  (¬ reported ∧ s.Shows source (opening ++ body ++ closing) ∧
    ClosesFirst closing body) ∨
    (reported ∧ s.Shows source (opening ++ body) ∧
      s.stop = source.utf8ByteSize ∧ ¬ closing <:+: body)

/-- A leaf holds what the source shows, among these problems of the source. -/
def Node.IsFaithful (source : String) (problems : List Diagnostic) : Node → Prop
  | text content span _ => span.Shows source content.toList
  | interpolation expression span _ =>
      span.Encloses source ['{', '{'] ['}', '}'] expression.toList
        (.unterminatedInterpolation span ∈ problems)
  | comment content span _ =>
      span.Encloses source "<!--".toList "-->".toList content.toList
        (.unterminatedComment span ∈ problems)
  | _ => True

theorem Cursor.Leads.shows {source : String} {c d : Cursor} {text : List Char}
    (hc : (Cursor.start source.toList).Leads c)
    (hrest : c.rest = text ++ d.rest)
    (hoffset : d.offset = c.offset + byteLength text) :
    (c.spanTo d).Shows source text := by
  obtain ⟨front, hfront, hstart⟩ := hc
  simp only [Cursor.start, Nat.zero_add] at hfront hstart
  refine ⟨front, d.rest, ?_, ?_⟩
  · rw [hfront, hrest, List.append_assoc]
  · rw [Cursor.spanTo, hoffset, hstart, byteLength_append]

theorem Cursor.Leads.shows_advance {source : String} {c : Cursor}
    {text : List Char} (hc : (Cursor.start source.toList).Leads c)
    (htext : text <+: c.rest) : (c.spanTo (c.advance text)).Shows source text :=
  hc.shows (List.prefix_iff_eq_append.mp htext).symm rfl

namespace Enclosed

variable {source : String} {opening closing : List Char} {c : Cursor}

/-- Without its closing marker a stretch does not hold one. -/
theorem not_isInfix_body
    (h : (Enclosed.read opening closing c).closed = false) :
    ¬ closing <:+: (Enclosed.read opening closing c).body := by
  obtain ⟨hparts, _⟩ :=
    takeUntil_spec closing.isPrefixOf (c.advance opening).rest
  simp only [Enclosed.read] at h ⊢
  split at h
  · contradiction
  · next hopen =>
      rw [if_neg hopen]
      rintro ⟨before, after, hbody⟩
      have hne : closing ++ after ≠ [] := by
        intro hnil
        simp [(List.append_eq_nil_iff.mp hnil).1] at hopen
      have hgoes :=
        hparts (closing ++ after)
          ⟨before, by rw [← List.append_assoc, hbody]⟩ hne
      rw [List.append_assoc, ← Bool.not_eq_true,
        List.isPrefixOf_iff_prefix] at hgoes
      exact hgoes (List.prefix_append closing _)

theorem encloses (hc : (Cursor.start source.toList).Leads c)
    (hopening : opening <+: c.rest) {reported : Prop}
    (hreported : reported ↔ (Enclosed.read opening closing c).closed = false) :
    (c.spanTo (Enclosed.read opening closing c).next).Encloses source
      opening closing
      (Enclosed.read opening closing c).body reported := by
  have hrest := Enclosed.rest_eq closing hopening
  have hoffset := Enclosed.next_offset opening closing c
  cases hclosed : (Enclosed.read opening closing c).closed with
  | true =>
      simp only [hclosed, if_true] at hrest hoffset
      refine Or.inl ⟨by simp [hreported, hclosed], hc.shows hrest ?_,
        closesFirst_body hclosed⟩
      simp only [hoffset, byteLength_append, Nat.add_assoc]
  | false =>
      have hend := next_eq_toEnd closing hopening hclosed
      simp only [hclosed, Bool.false_eq_true, if_false,
        List.append_nil] at hrest hoffset
      refine Or.inr ⟨hreported.mpr hclosed, hc.shows hrest ?_, ?_,
        not_isInfix_body hclosed⟩
      · simp only [hoffset, byteLength_append, byteLength_nil,
          Nat.add_assoc, Nat.add_zero]
      · rw [hend]
        exact hc.toEnd_offset

end Enclosed

/-- A problem tells of the comment, CDATA section or interpolation at a cursor,
which is never closed. -/
inductive Diagnostic.IsOpenAt (c : Cursor) : Diagnostic → Prop where
  | comment
      (hopen : (Enclosed.read "<!--".toList "-->".toList c).closed = false) :
      IsOpenAt c (.unterminatedComment (c.spanTo (Siblings.comment c).next))
  | cdata (hopen : (Enclosed.read "<![CDATA[".toList "]]>".toList c).closed =
      false) :
      IsOpenAt c (.unterminatedCdata (c.spanTo (Siblings.cdata c).next))
  | interpolation
      (hopen : (Enclosed.read ['{', '{'] ['}', '}'] c).closed = false) :
      IsOpenAt c
        (.unterminatedInterpolation (c.spanTo (Siblings.interpolation c).next))

theorem Diagnostic.IsOpenAt.start_eq {c : Cursor} {d : Diagnostic}
    (h : d.IsOpenAt c) : d.span.start = c.offset := by
  cases h <;> rfl

theorem Leaf.isOpenAt {o : ReadOptions} {mode : TextMode} {c : Cursor}
    {item : Siblings} (h : Leaf o mode c item) :
    ∀ d ∈ item.diagnostics, d.isUnterminated = true → d.IsOpenAt c := by
  intro d hd hopen
  cases h with
  | comment =>
      rw [Siblings.diagnostics_comment, List.mem_ite_nil_left,
        List.mem_singleton] at hd
      rw [hd.2]
      exact .comment (Bool.eq_false_of_not_eq_true hd.1)
  | cdata =>
      rw [Siblings.diagnostics_cdata, List.mem_ite_nil_left,
        List.mem_singleton] at hd
      rw [hd.2]
      exact .cdata (Bool.eq_false_of_not_eq_true hd.1)
  | unmatched =>
      rw [List.mem_singleton.mp hd] at hopen
      contradiction
  | interpolation =>
      rw [Siblings.diagnostics_interpolation, List.mem_ite_nil_left,
        List.mem_singleton] at hd
      rw [hd.2]
      exact .interpolation (Bool.eq_false_of_not_eq_true hd.1)
  | text => simp [Siblings.text, Siblings.diagnostics] at hd

/-- What is never closed is told of by problems at places of the source. -/
def TellsOpen (source : String) (problems : List Diagnostic) : Prop :=
  ∀ d ∈ problems, d.isUnterminated = true →
    ∃ c, (Cursor.start source.toList).Leads c ∧ d.IsOpenAt c

namespace TellsOpen

variable {source : String} {problems : List Diagnostic} {c : Cursor}

theorem append {more : List Diagnostic} (h : TellsOpen source problems)
    (hmore : TellsOpen source more) : TellsOpen source (problems ++ more) :=
  List.forall_mem_append.mpr ⟨h, hmore⟩

theorem of_not_isUnterminated (h : ∀ d ∈ problems, d.isUnterminated = false) :
    TellsOpen source problems := by
  intro d hd hopen
  simp [h d hd] at hopen

theorem of_leaf {o : ReadOptions} {mode : TextMode} {item : Siblings}
    (hc : (Cursor.start source.toList).Leads c) (hleaf : Leaf o mode c item) :
    TellsOpen source item.diagnostics :=
  fun d hd hopen => ⟨c, hc, hleaf.isOpenAt d hd hopen⟩

/-- A problem that begins at a place tells of that place. -/
theorem isOpenAt (h : TellsOpen source problems)
    (hc : (Cursor.start source.toList).Leads c) {d : Diagnostic}
    (hd : d ∈ problems) (hopen : d.isUnterminated = true)
    (hstart : d.span.start = c.offset) : d.IsOpenAt c := by
  obtain ⟨place, hplace, hat⟩ := h d hd hopen
  rwa [← hplace.eq_of_offset hc (hat.start_eq.symm.trans hstart)]

/-- In a source whose text is preserved the nodes of a leaf are faithful. -/
theorem isFaithful_nodes {o : ReadOptions} {mode : TextMode} {item : Siblings}
    (h : TellsOpen source problems) (hleaf : Leaf o mode c item)
    (hpreserve : o.whitespace = .preserve)
    (hc : (Cursor.start source.toList).Leads c)
    (hitem : item.diagnostics ⊆ problems) :
    ∀ n ∈ item.nodes, n.IsFaithful source problems := by
  intro n hn
  cases hleaf with
  | comment _ hopening =>
      rw [List.mem_singleton.mp hn]
      simp only [Node.IsFaithful, String.toList_ofList]
      refine Enclosed.encloses hc hopening
        ⟨fun hreported => ?_, fun hopen => ?_⟩
      · cases h.isOpenAt hc hreported rfl rfl with
        | comment hopen => exact hopen
      · apply hitem
        rw [Siblings.diagnostics_comment, hopen]
        exact List.mem_singleton_self _
  | cdata _ hopening =>
      simp only [Siblings.cdata] at hn
      split at hn
      · simp at hn
      · rw [List.mem_singleton.mp hn]
        simp only [Node.IsFaithful, String.toList_ofList]
        exact (hc.trans (Cursor.leads_advance hopening)).shows_advance
          (Enclosed.body_isPrefix _ _ c)
  | unmatched => simp [Siblings.unmatched] at hn
  | interpolation _ hopening =>
      rw [List.mem_singleton.mp hn]
      simp only [Node.IsFaithful, String.toList_ofList]
      refine Enclosed.encloses hc hopening
        ⟨fun hreported => ?_, fun hopen => ?_⟩
      · cases h.isOpenAt hc hreported rfl rfl with
        | interpolation hopen => exact hopen
      · apply hitem
        rw [Siblings.diagnostics_interpolation, hopen]
        exact List.mem_singleton_self _
  | text =>
      have hkept : (Siblings.text o mode c).nodes = [.text
          (String.ofList (Siblings.textRun mode c.rest))
          (c.spanTo (c.advance (Siblings.textRun mode c.rest))) none] := by
        simp [Siblings.text, hpreserve]
      rw [hkept] at hn
      rw [List.mem_singleton.mp hn]
      simp only [Node.IsFaithful, String.toList_ofList]
      exact hc.shows_advance (Siblings.textRun_isPrefix mode c.rest)

end TellsOpen

/-- A node belongs to a leaf of the source, whose problems are among these. -/
def Node.IsOfLeaf (o : ReadOptions) (source : String)
    (problems : List Diagnostic) (n : Node) : Prop :=
  ∃ mode c item, (Cursor.start source.toList).Leads c ∧ Leaf o mode c item ∧
    n ∈ item.nodes ∧ item.diagnostics ⊆ problems

theorem Node.IsOfLeaf.mono {o : ReadOptions} {source : String}
    {problems more : List Diagnostic} {n : Node}
    (h : n.IsOfLeaf o source problems) (hmore : problems ⊆ more) :
    n.IsOfLeaf o source more := by
  obtain ⟨mode, c, item, hc, hleaf, hn, hitem⟩ := h
  exact ⟨mode, c, item, hc, hleaf, hn, List.Subset.trans hitem hmore⟩

namespace Reader

variable {o : ReadOptions} {source : String} {s t : Reader}

theorem Step.diagnostics_subset (h : s.Step o t) :
    s.diagnostics ⊆ t.diagnostics := by
  cases h with
  | leave => simp [diagnostics_leave]
  | leaf => simp [diagnostics_take]
  | alone => simp [diagnostics_take]
  | enter => simp [diagnostics_enter]

theorem Reaches.diagnostics_subset (h : s.Reaches o t) :
    s.diagnostics ⊆ t.diagnostics :=
  h.invariant (P := fun u => s.diagnostics ⊆ u.diagnostics)
    (fun _ _ hu hstep =>
      List.Subset.trans hu (step_cases hstep).diagnostics_subset)
    (List.Subset.refl _)

/-- What was made and reported so far comes from leaves of the source, the
elements apart. -/
structure Traced (o : ReadOptions) (source : String) (s : Reader) : Prop where
  here : (Cursor.start source.toList).Leads s.here
  nodes : ∀ n ∈ s.listing, n.kind = .element ∨ n.IsOfLeaf o source s.diagnostics
  problems : TellsOpen source s.diagnostics

theorem Step.traced (h : s.Step o t) (hs : s.Traced o source) :
    t.Traced o source := by
  have hhere := hs.here.trans h.leads
  have hnodes : ∀ n ∈ s.listing, n.kind = .element ∨
      n.IsOfLeaf o source t.diagnostics :=
    fun n hn => (hs.nodes n hn).imp_right fun hleaf =>
      hleaf.mono h.diagnostics_subset
  cases h with
  | @leave f outer _ hframes =>
      obtain ⟨before, after, element, hlisting, hleft, hkind, _⟩ :=
        listing_leave hframes
      refine ⟨hhere, ?_, ?_⟩
      · rw [hlisting, List.forall_mem_append] at hnodes
        rw [hleft, List.forall_mem_append, List.forall_mem_cons]
        exact ⟨hnodes.1, Or.inl hkind, hnodes.2⟩
      · rw [diagnostics_leave]
        exact hs.problems.append (.of_not_isUnterminated fun d hd =>
          Diagnostic.not_isUnterminated_of_isMissingClosingTag
            (f.tag.isMissingClosingTag_close s.here d hd))
  | @leaf item hgoes hleaf =>
      refine ⟨hhere, ?_, ?_⟩
      · rw [listing_take_leaf hleaf, List.forall_mem_append]
        refine ⟨hnodes, fun n hn =>
          Or.inr ⟨s.mode, s.here, item, hs.here, hleaf, hn, ?_⟩⟩
        rw [diagnostics_take]
        exact List.subset_append_right _ _
      · rw [diagnostics_take]
        exact hs.problems.append (.of_leaf hs.here hleaf)
  | @alone tag problems htag hproblems =>
      refine ⟨hhere, ?_, ?_⟩
      · rw [listing_take_alone, List.forall_mem_append,
          List.forall_mem_singleton]
        exact ⟨hnodes, Or.inl rfl⟩
      · rw [diagnostics_take]
        exact hs.problems.append
          (.of_not_isUnterminated
            (StartTag.not_isUnterminated_alone htag hproblems))
  | @enter tag htag =>
      refine ⟨hhere, ?_, ?_⟩
      · rw [listing_enter]
        exact hnodes
      · rw [diagnostics_enter]
        exact hs.problems.append
          (.of_not_isUnterminated (StartTag.not_isUnterminated_problems htag))

theorem Reaches.traced (h : (start source).Reaches o s) : s.Traced o source :=
  h.invariant (fun _ _ hu hstep => (step_cases hstep).traced hu)
    ⟨.refl _, by simp [start, listing], by simp [start, diagnostics, TellsOpen]⟩

/-- The reader stands at a CDATA section, which it reads next. -/
def EntersCdata (s : Reader) : Prop :=
  endsContent s.opened s.here.rest = false ∧ s.mode = .data ∧
    "<![CDATA[".toList <+: s.here.rest

structure IsLast (o : ReadOptions) (source : String)
    (last : Reader) : Prop where
  reaches : (start source).Reaches o last
  step : last.step o = none
  listing : last.listing =
    (Template.read o source).root.children.flatMap Node.nodes
  diagnostics : last.diagnostics = (Template.read o source).diagnostics

theorem exists_isLast (o : ReadOptions) (source : String) :
    ∃ last, IsLast o source last := by
  obtain ⟨last, hreaches, hstep, hnodes, hnotes⟩ := reaches_last o source
  refine ⟨last, hreaches, hstep, ?_, ?_⟩
  · rw [Reader.listing, (step_eq_none hstep).1, hnodes]
    rfl
  · rw [Reader.diagnostics, hnotes]
    rfl

section

variable {last : Reader} (hlast : IsLast o source last)
  (hs : (start source).Reaches o s) (hcdata : s.EntersCdata)

include hlast hs hcdata

theorem IsLast.take_cdata_reaches :
    (s.take (.cdata s.here)).Reaches o last := by
  obtain ⟨hgoes, hmode, hopening⟩ := hcdata
  have htake := hs.trans (.of_step (step_of_leaf hgoes (.cdata hmode hopening)))
  exact htake.of_last hlast.reaches hlast.step

/-- What a CDATA section holds is one text, unless it is empty. -/
theorem IsLast.filter_cdata :
    let e := Enclosed.read "<![CDATA[".toList "]]>".toList s.here
    let inside := s.here.advance "<![CDATA[".toList
    last.listing.filter (fun n => (s.here.spanTo e.next).Holds n.span.start) =
      if e.body.isEmpty then []
      else
        [.text (String.ofList e.body)
          (inside.spanTo (inside.advance e.body)) none] := by
  have hlater := hlast.take_cdata_reaches hs hcdata
  obtain ⟨hgoes, hmode, hopening⟩ := hcdata
  exact hs.filter_listing_leaf hgoes (.cdata hmode hopening) hlater

/-- A problem begins at a CDATA section just if it is not closed. -/
theorem IsLast.reports_cdata_iff :
    (∃ stretch, .unterminatedCdata stretch ∈ last.diagnostics ∧
      stretch.start = s.here.offset) ↔
    (Enclosed.read "<![CDATA[".toList "]]>".toList s.here).closed = false := by
  constructor
  · rintro ⟨stretch, hreported, hstart⟩
    cases hlast.reaches.traced.problems.isOpenAt hs.leads hreported
      rfl hstart with
    | cdata hopen => exact hopen
  · intro hopen
    refine ⟨s.here.spanTo (Siblings.cdata s.here).next, ?_, rfl⟩
    apply (hlast.take_cdata_reaches hs hcdata).diagnostics_subset
    rw [diagnostics_take, Siblings.diagnostics_cdata, hopen]
    exact List.mem_append_right _ (List.mem_singleton_self _)

end

end Reader

/-- What the leaves of a template hold is what its source shows.  Where text is
preserved, every text is the source at its place, and every interpolation and
comment is what stands between its markers, up to the first closing one or, if
the reader says so, up to the end of the source.  Whatever is done with blanks,
a CDATA section that the reader comes to is one text with all that stands
between its markers, or nothing if that is empty. -/
theorem Template.read_isFaithful (limit : Nat) (source : String) :
    (let t := Template.read ⟨.preserve, limit⟩ source
      ∀ n ∈ t.root.nodes, n.IsFaithful source t.diagnostics) ∧
    ∀ (whitespace : Whitespace) (s : Reader),
      let o : ReadOptions := ⟨whitespace, limit⟩
      let t := Template.read o source
      (Reader.start source).Reaches o s → s.EntersCdata →
      ∃ (span : Span) (body : List Char), span.start = s.here.offset ∧
        span.Encloses source "<![CDATA[".toList "]]>".toList body
          (∃ stretch, .unterminatedCdata stretch ∈ t.diagnostics ∧
            stretch.start = s.here.offset) ∧
        let first := s.here.offset + byteLength "<![CDATA[".toList
        (t.root.children.flatMap Node.nodes).filter
          (fun n => span.Holds n.span.start) =
          if body.isEmpty then []
          else [.text (String.ofList body)
            ⟨first, first + byteLength body⟩ none] := by
  refine ⟨fun n hn => ?_, fun whitespace s hs hcdata => ?_⟩
  · obtain ⟨last, hlast⟩ := Reader.exists_isLast ⟨.preserve, limit⟩ source
    have htraced := hlast.reaches.traced
    rw [Node.nodes_eq, ← hlast.listing] at hn
    rcases List.mem_cons.mp hn with rfl | hn
    · trivial
    · rw [← hlast.diagnostics]
      rcases htraced.nodes n hn with hkind |
        ⟨mode, c, item, hc, hleaf, hmem, hitem⟩
      · cases n <;> trivial
      · exact htraced.problems.isFaithful_nodes hleaf rfl hc hitem n hmem
  · obtain ⟨last, hlast⟩ := Reader.exists_isLast ⟨whitespace, limit⟩ source
    have hhere : (Cursor.start source.toList).Leads s.here := hs.leads
    rw [← hlast.listing, ← hlast.diagnostics]
    exact ⟨_, _, rfl,
      Enclosed.encloses hhere hcdata.2.2 (hlast.reports_cdata_iff hs hcdata),
      hlast.filter_cdata hs hcdata⟩

/-- A CDATA section behind a text that is condensed, and a comment that the
source ends in. -/
theorem Template.read_isFaithful_behind_text :
    let source := "é  <![CDATA[ {{x}}]]><p>{{ a}}<!-- b"
    (∃ n ∈ (Template.read ⟨.preserve, 3⟩ source).root.nodes, n.kind = .comment ∧
      n.IsFaithful source (Template.read ⟨.preserve, 3⟩ source).diagnostics) ∧
    ∃ s : Reader, (Reader.start source).Reaches ⟨.condense, 3⟩ s ∧
      s.EntersCdata ∧
      ∃ (span : Span) (body : List Char), span.start = 4 ∧
        span.Encloses source "<![CDATA[".toList "]]>".toList body
          (∃ stretch,
            .unterminatedCdata stretch ∈
              (Template.read ⟨.condense, 3⟩ source).diagnostics ∧
              stretch.start = 4) ∧
        ((Template.read ⟨.condense, 3⟩ source).root.children.flatMap
          Node.nodes).filter
            (fun n => span.Holds n.span.start) =
          if body.isEmpty then []
          else
            [.text (String.ofList body) ⟨13, 13 + byteLength body⟩ none] := by
  intro source
  have heval :
      (Template.read ⟨.preserve, 3⟩ source).root.nodes[5]?.map Node.kind =
      some .comment := by
    decide +kernel
  obtain ⟨n, hn, hkind⟩ := Option.map_eq_some_iff.mp heval
  have hmem := List.mem_of_getElem? hn
  have hstep : ((Reader.start source).steps ⟨.condense, 3⟩ 1).map
      (fun s => (s.frames.length, s.here)) =
        some (0, ⟨4, "<![CDATA[ {{x}}]]><p>{{ a}}<!-- b".toList⟩) := by
    decide +kernel
  obtain ⟨s, hs, hshape⟩ := Option.map_eq_some_iff.mp hstep
  obtain ⟨hframes, hhere⟩ := Prod.mk.injEq .. ▸ hshape
  rw [List.length_eq_zero_iff] at hframes
  have hcdata : s.EntersCdata := by
    rw [Reader.EntersCdata, Reader.opened, Reader.mode, hframes, hhere]
    exact ⟨by decide +kernel, rfl, by decide +kernel⟩
  obtain ⟨span, body, hstart, hencloses, hnodes⟩ :=
    (Template.read_isFaithful 3 source).2 .condense s ⟨1, hs⟩ hcdata
  rw [hhere] at hstart hencloses hnodes
  exact ⟨⟨n, hmem, hkind, (Template.read_isFaithful 3 source).1 n hmem⟩, s,
    ⟨1, hs⟩, hcdata, span, body, hstart, hencloses, hnodes⟩

end MarkupTemplate
