/-
What is never closed.  A comment, CDATA section or interpolation without its
closing marker takes the reader to the end of the source, where open elements
are left and nothing else is found.  A quote without its partner does not occur
again, so it is reported once at most.
-/
import MarkupTemplate.Proofs.Origin
import MarkupTemplate.Proofs.Progress

namespace MarkupTemplate

namespace Diagnostic

/-- Whether a problem is a comment, CDATA section or interpolation that is
never closed. -/
def isUnterminated : Diagnostic → Bool
  | unterminatedComment _ => true
  | unterminatedCdata _ => true
  | unterminatedInterpolation _ => true
  | _ => false

def isMissingClosingTag : Diagnostic → Bool
  | missingClosingTag .. => true
  | _ => false

def isOpenQuote : Diagnostic → Bool
  | missingAttributeQuote .. => true
  | _ => false

theorem not_isUnterminated_of_isTagProblem {d : Diagnostic}
    (h : d.isTagProblem = true) : d.isUnterminated = false := by
  cases d <;> first | rfl | simp [isTagProblem, isUnclosed, unclosed?] at h

theorem not_isUnterminated_of_isMissingClosingTag {d : Diagnostic}
    (h : d.isMissingClosingTag = true) : d.isUnterminated = false := by
  cases d <;> first | rfl | simp [isMissingClosingTag] at h

/-- The stretch of a problem begins with this quote, which does not occur again,
and ends with the source. -/
def LiesFromQuote (source : String) (d : Diagnostic) (quote : Char) : Prop :=
  ∃ front back, source.toList = front ++ quote :: back ∧ quote ∉ back ∧
    d.span = ⟨byteLength front, source.utf8ByteSize⟩

/-- Problems of which one is a stretch that is never closed.  It goes to the
offset `size`, and behind it only end tags are missing. -/
def BreakOff (size : Nat) (ds : List Diagnostic) : Prop :=
  ∃ before d missed, ds = before ++ d :: missed ∧
    (∀ e ∈ before, e.isUnterminated = false) ∧
    d.isUnterminated = true ∧ d.span.stop = size ∧
    ∀ e ∈ missed, e.isMissingClosingTag = true

theorem BreakOff.append_missed {size : Nat} {ds missed : List Diagnostic}
    (h : BreakOff size ds)
    (hmissed : ∀ e ∈ missed, e.isMissingClosingTag = true) :
    BreakOff size (ds ++ missed) := by
  obtain ⟨before, d, later, rfl, hbefore, hd, hstop, hlater⟩ := h
  refine ⟨before, d, later ++ missed, ?_, hbefore, hd, hstop, ?_⟩
  · rw [List.append_assoc, List.cons_append]
  · exact List.forall_mem_append.mpr ⟨hlater, hmissed⟩

theorem BreakOff.countP_le_one {size : Nat} {ds : List Diagnostic}
    (h : BreakOff size ds) : ds.countP isUnterminated ≤ 1 := by
  obtain ⟨before, d, missed, rfl, hbefore, _, _, hmissed⟩ := h
  have hfirst : before.countP isUnterminated = 0 :=
    List.countP_eq_zero.mpr fun e he => by simp [hbefore e he]
  have hlast : missed.countP isUnterminated = 0 :=
    List.countP_eq_zero.mpr fun e he => by
      simp [not_isUnterminated_of_isMissingClosingTag (hmissed e he)]
  rw [List.countP_append, List.countP_cons, hfirst, hlast]
  split <;> omega

end Diagnostic

theorem StartTag.isMissingClosingTag_close (tag : StartTag) (c : Cursor) :
    ∀ d ∈ (tag.close c).1, d.isMissingClosingTag = true := by
  unfold StartTag.close
  split <;> simp [Diagnostic.isMissingClosingTag]

theorem StartTag.not_isUnterminated_problems {c : Cursor} {tag : StartTag}
    (h : StartTag.read? c = some tag) :
    ∀ d ∈ tag.problems, d.isUnterminated = false :=
  fun d hd =>
    Diagnostic.not_isUnterminated_of_isTagProblem
      (StartTag.isTagProblem_problems h d hd)

theorem StartTag.not_isUnterminated_alone {o : ReadOptions} {c : Cursor}
    {tag : StartTag} {problems : List Diagnostic}
    (h : StartTag.read? c = some tag)
    (hproblems : problems = [] ∨
      problems = [.nestingTooDeep tag.name o.maxDepth tag.span]) :
    ∀ d ∈ (tag.alone c problems).diagnostics, d.isUnterminated = false := by
  rw [StartTag.diagnostics_alone]
  refine List.forall_mem_append.mpr ⟨StartTag.not_isUnterminated_problems h, ?_⟩
  rcases hproblems with rfl | rfl <;> simp [Diagnostic.isUnterminated]

/-- An enclosed stretch without its closing marker goes to the end of the
source. -/
theorem Enclosed.next_eq_toEnd {opening : List Char}
    (closing : List Char) {c : Cursor} (hopening : opening <+: c.rest)
    (h : (Enclosed.read opening closing c).closed = false) :
    (Enclosed.read opening closing c).next = c.toEnd := by
  apply (Enclosed.read_leads closing hopening).eq_toEnd
  have hstop := (takeUntil_spec closing.isPrefixOf (c.advance opening).rest).2
  simp only [Enclosed.read] at h ⊢
  split at h
  · contradiction
  · next hopen =>
      rw [if_neg hopen]
      exact hstop.resolve_right hopen

/-- An enclosed stretch that is not closed is one problem, which goes to the end
of the source with the reader. -/
theorem Enclosed.unterminated_cases {opening closing : List Char} {c : Cursor}
    {item : Siblings} {d : Diagnostic} (hopening : opening <+: c.rest)
    (hnext : item.next = (Enclosed.read opening closing c).next)
    (hproblems : item.diagnostics =
      if (Enclosed.read opening closing c).closed then [] else [d])
    (hd : d.isUnterminated = true) (hspan : d.span = c.spanTo item.next) :
    (∀ d ∈ item.diagnostics, d.isUnterminated = false) ∨
      ∃ d, item.diagnostics = [d] ∧ d.isUnterminated = true ∧
        d.span.stop = c.toEnd.offset ∧
        item.next.rest = [] := by
  cases hclosed : (Enclosed.read opening closing c).closed with
  | true => exact Or.inl (by simp [hproblems, hclosed])
  | false =>
      rw [Enclosed.next_eq_toEnd closing hopening hclosed] at hnext
      refine Or.inr ⟨d, by simp [hproblems, hclosed], hd, ?_,
        by rw [hnext]; rfl⟩
      rw [hspan, hnext]
      rfl

theorem Leaf.unterminated_cases {o : ReadOptions} {mode : TextMode} {c : Cursor}
    {item : Siblings} (h : Leaf o mode c item) :
    (∀ d ∈ item.diagnostics, d.isUnterminated = false) ∨
      ∃ d, item.diagnostics = [d] ∧ d.isUnterminated = true ∧
        d.span.stop = c.toEnd.offset ∧
        item.next.rest = [] := by
  cases h with
  | comment _ hopening =>
      exact Enclosed.unterminated_cases hopening rfl
        (Siblings.diagnostics_comment c) rfl rfl
  | cdata _ hopening =>
      exact Enclosed.unterminated_cases hopening rfl
        (Siblings.diagnostics_cdata c) rfl rfl
  | unmatched =>
      exact Or.inl
        (by simp [Siblings.unmatched, Siblings.diagnostics,
          Diagnostic.isUnterminated])
  | interpolation _ hopening =>
      exact Enclosed.unterminated_cases hopening rfl
        (Siblings.diagnostics_interpolation c) rfl rfl
  | text => exact Or.inl (by simp [Siblings.text, Siblings.diagnostics])

namespace Reader

variable {o : ReadOptions} {s t : Reader}

/-- Nothing that is never closed was met so far, or the reader stands at the end
of the source and has missed end tags only since then. -/
def AtRest (s : Reader) : Prop :=
  (∀ d ∈ s.diagnostics, d.isUnterminated = false) ∨
    (Diagnostic.BreakOff s.here.toEnd.offset s.diagnostics ∧ s.here.rest = [])

theorem Step.atRest (h : s.Step o t) (hs : s.AtRest) : t.AtRest := by
  have hend := h.leads.end_eq
  cases h with
  | @leave f outer _ hframes =>
      have hmissed := f.tag.isMissingClosingTag_close s.here
      rw [AtRest, hend, diagnostics_leave]
      rcases hs with hnone | ⟨hbroken, hrest⟩
      · refine Or.inl (List.forall_mem_append.mpr ⟨hnone, fun d hd => ?_⟩)
        exact Diagnostic.not_isUnterminated_of_isMissingClosingTag
          (hmissed d hd)
      · refine Or.inr ⟨hbroken.append_missed hmissed, ?_⟩
        have hsuffix := (f.tag.close_leads s.here).suffix
        rw [hrest] at hsuffix
        exact List.suffix_nil.mp hsuffix
  | @leaf item hgoes hleaf =>
      rw [AtRest, hend, diagnostics_take]
      -- at the end of the source nothing is read any more
      rcases hs with hnone | ⟨_, hrest⟩
      · rcases hleaf.unterminated_cases with hothers |
          ⟨d, hone, hd, hstop, hnext⟩
        · exact Or.inl (List.forall_mem_append.mpr ⟨hnone, hothers⟩)
        · rw [hone]
          exact Or.inr ⟨⟨s.diagnostics, d, [], rfl, hnone, hd, hstop, by simp⟩,
            hnext⟩
      · exact absurd hrest (ne_nil_of_endsContent hgoes)
  | @alone tag problems htag hproblems =>
      obtain ⟨x, more, hletter, _⟩ := StartTag.exists_letter htag
      rw [AtRest, diagnostics_take]
      rcases hs with hnone | ⟨_, hrest⟩
      · have hothers := StartTag.not_isUnterminated_alone htag hproblems
        exact Or.inl (List.forall_mem_append.mpr ⟨hnone, hothers⟩)
      · simp [hletter] at hrest
  | @enter tag htag =>
      obtain ⟨x, more, hletter, _⟩ := StartTag.exists_letter htag
      rw [AtRest, diagnostics_enter]
      rcases hs with hnone | ⟨_, hrest⟩
      · have hothers := StartTag.not_isUnterminated_problems htag
        exact Or.inl (List.forall_mem_append.mpr ⟨hnone, hothers⟩)
      · simp [hletter] at hrest

theorem Reaches.atRest (h : s.Reaches o t) (hs : s.AtRest) : t.AtRest :=
  h.invariant (fun _ _ hu hstep => (step_cases hstep).atRest hu) hs

end Reader

/-- The quotes among the problems found so far, each of which lies behind the
reader and does not occur ahead of it. -/
structure QuotesBehind (source : String) (ds : List Diagnostic) (c : Cursor)
    (quotes : List Char) : Prop where
  reports : List.Forall₂ (Diagnostic.LiesFromQuote source)
    (ds.filter Diagnostic.isOpenQuote) quotes
  nodup : quotes.Nodup
  kinds : quotes ⊆ ['"', '\'']
  behind : ∀ quote ∈ quotes, quote ∉ c.rest

namespace QuotesBehind

variable {source : String} {ds : List Diagnostic} {c d : Cursor}
  {quotes : List Char}

/-- No quote is found on the way. -/
theorem append_none (h : QuotesBehind source ds c quotes) (hd : c.Leads d)
    {problems : List Diagnostic}
    (hnone : ∀ p ∈ problems, p.isOpenQuote = false) :
    QuotesBehind source (ds ++ problems) d quotes := by
  refine ⟨?_, h.nodup, h.kinds, fun quote hquote hmem => ?_⟩
  · have hothers : problems.filter Diagnostic.isOpenQuote = [] := by
      simpa using hnone
    rw [List.filter_append, hothers, List.append_nil]
    exact h.reports
  · exact h.behind quote hquote (hd.suffix.mem hmem)

/-- A quote is found at the place `q`, and the reader goes on behind it. -/
theorem append_quote (h : QuotesBehind source ds c quotes)
    (hc : (Cursor.start source.toList).Leads c) {q : Cursor} (hq : c.Leads q)
    (hd : q.Leads d) (hopens : OpensQuote q.rest) (hlt : q.offset < d.offset)
    (name : String) :
    ∃ quote, QuotesBehind source
      (ds ++ [.missingAttributeQuote name (q.spanTo q.toEnd)]) d
        (quotes ++ [quote]) := by
  obtain ⟨quote, more, hrest, hquote, hmore⟩ := hopens
  have hfresh : quote ∉ quotes := fun hmem =>
    h.behind quote hmem (hq.suffix.mem (by simp [hrest]))
  have hahead : quote ∉ d.rest := by
    obtain ⟨taken, htaken, hoffset⟩ := hd
    cases taken with
    | nil => simp [hoffset] at hlt
    | cons x taken =>
        rw [hrest, List.cons_append, List.cons.injEq] at htaken
        exact fun hmem => hmore (htaken.2 ▸ List.mem_append_right _ hmem)
  refine ⟨quote, ?_, ?_, ?_, ?_⟩
  · rw [List.filter_append]
    refine List.rel_append h.reports (.cons ?_ .nil)
    have hsize := (hc.trans hq).toEnd_offset
    obtain ⟨front, hfront, hoffset⟩ := hc.trans hq
    refine ⟨front, more, by simpa [Cursor.start, hrest] using hfront, hmore, ?_⟩
    simp only [Diagnostic.span, Cursor.spanTo, hsize, hoffset]
    simp [Cursor.start]
  · simpa [List.nodup_append, h.nodup] using fun x hx (heq : x = quote) =>
      hfresh (heq ▸ hx)
  · exact List.append_subset.mpr ⟨h.kinds, by simpa using hquote⟩
  · intro x hx
    rcases List.mem_append.mp hx with hx | hx
    · exact fun hmem => h.behind x hx ((hq.trans hd).suffix.mem hmem)
    · rwa [List.mem_singleton.mp hx]

theorem append_startTag (h : QuotesBehind source ds c quotes)
    (hc : (Cursor.start source.toList).Leads c) {tag : StartTag}
    (htag : StartTag.read? c = some tag) :
    ∃ quotes, QuotesBehind source (ds ++ tag.problems) tag.next quotes := by
  have hnext := StartTag.read?_leads htag
  rcases StartTag.problems_cases htag with
    ⟨hnone, _⟩ | ⟨hbroken, _⟩ | ⟨name, q, hproblems, hq, hopens, hlt, _⟩
  · exact ⟨quotes, h.append_none hnext (by simp [hnone])⟩
  · exact ⟨quotes,
      h.append_none hnext (by simp [hbroken, Diagnostic.isOpenQuote])⟩
  · obtain ⟨quote, hquote⟩ := h.append_quote hc hq
      (hq.of_offset_le hnext (Nat.le_of_lt hlt)) hopens hlt name
    exact ⟨quotes ++ [quote], by rwa [hproblems]⟩

end QuotesBehind

namespace Reader

variable {o : ReadOptions} {source : String} {s t : Reader}

theorem Step.quotesBehind (h : s.Step o t)
    (hhere : (Cursor.start source.toList).Leads s.here) {quotes : List Char}
    (hs : QuotesBehind source s.diagnostics s.here quotes) :
    ∃ quotes, QuotesBehind source t.diagnostics t.here quotes := by
  have hleads := h.leads
  cases h with
  | @leave f _ _ _ =>
      rw [diagnostics_leave]
      refine ⟨quotes, hs.append_none hleads fun d hd => ?_⟩
      have hmissed := f.tag.isMissingClosingTag_close s.here d hd
      cases d <;> first | rfl | contradiction
  | @leaf item hgoes hleaf =>
      rw [diagnostics_take]
      refine ⟨quotes, hs.append_none hleads fun d hd => ?_⟩
      have hother := hleaf.not_isTagProblem d hd
      cases d <;> first | rfl | contradiction
  | @alone tag problems htag hproblems =>
      rw [diagnostics_take, StartTag.diagnostics_alone, ← List.append_assoc]
      obtain ⟨quotes, hquotes⟩ := hs.append_startTag hhere htag
      refine ⟨quotes, hquotes.append_none (.refl _) ?_⟩
      rcases hproblems with rfl | rfl <;> simp [Diagnostic.isOpenQuote]
  | enter htag =>
      rw [diagnostics_enter]
      exact hs.append_startTag hhere htag

theorem Reaches.quotesBehind (h : (start source).Reaches o s) :
    ∃ quotes, QuotesBehind source s.diagnostics s.here quotes := by
  have hrun := h.invariant
    (P := fun s => (Cursor.start source.toList).Leads s.here ∧
      ∃ quotes, QuotesBehind source s.diagnostics s.here quotes)
    (fun s t hs hstep => ?_) ⟨.refl _, [], .nil, .nil, by simp, by simp⟩
  · exact hrun.2
  · obtain ⟨hhere, quotes, hquotes⟩ := hs
    have hcases := step_cases hstep
    exact ⟨hhere.trans hcases.leads, hcases.quotesBehind hhere hquotes⟩

end Reader

/-- What is never closed is reported and does no more harm.  At most one
comment, CDATA section or interpolation is not closed; it goes to the end of the
source, and behind it only end tags are missing.  At most two quotes are not
closed, one of each kind, and each report goes from its quote to the end of the
source. -/
theorem Template.read_breaksOff_once (o : ReadOptions) (source : String) :
    let ds := (Template.read o source).diagnostics
    (ds.countP Diagnostic.isUnterminated ≤ 1 ∧
      ((∀ d ∈ ds, d.isUnterminated = false) ∨
        Diagnostic.BreakOff source.utf8ByteSize ds)) ∧
    ds.countP Diagnostic.isOpenQuote ≤ 2 ∧
    ∃ quotes, List.Forall₂ (Diagnostic.LiesFromQuote source)
      (ds.filter Diagnostic.isOpenQuote) quotes ∧ quotes.Nodup ∧
      quotes ⊆ ['"', '\''] := by
  intro ds
  obtain ⟨last, hreaches, _, _, hnotes⟩ := Reader.reaches_last o source
  have hdiagnostics : last.diagnostics = ds := by
    rw [Reader.diagnostics, hnotes]
    rfl
  have hsize : last.here.toEnd.offset = source.utf8ByteSize :=
    hreaches.leads.toEnd_offset
  have hrest :=
    hreaches.atRest (Or.inl (by simp [Reader.start, Reader.diagnostics]))
  obtain ⟨quotes, hquotes⟩ := hreaches.quotesBehind
  rw [Reader.AtRest, hdiagnostics, hsize] at hrest
  rw [hdiagnostics] at hquotes
  refine ⟨⟨?_, hrest.imp_right And.left⟩, ?_, quotes, hquotes.reports,
    hquotes.nodup, hquotes.kinds⟩
  · rcases hrest with hnone | ⟨hbroken, _⟩
    · rw [List.countP_eq_zero.mpr fun d hd => by simp [hnone d hd]]
      exact Nat.zero_le 1
    · exact hbroken.countP_le_one
  · rw [List.countP_eq_length_filter, hquotes.reports.length_eq]
    exact (hquotes.nodup.subperm hquotes.kinds).length_le

-- both quotes are missed, then a comment that is not closed in two open
-- elements
example : (Template.read {} "<a x='><b y=\"><i></b><!-- > ").diagnostics =
    [.missingAttributeQuote "x" ⟨5, 28⟩, .missingAttributeQuote "y" ⟨12, 28⟩,
      .missingClosingTag "i" ⟨14, 17⟩, .unterminatedComment ⟨21, 28⟩,
      .missingClosingTag "a" ⟨0, 7⟩] := by decide +kernel

end MarkupTemplate
