/-
Where the elements of a tree come from.  Each element is traced back to the
place where it was read, together with its content and the problems found at
its tags.  The start tags of the elements lie apart, and their problems are all
that is reported about tags.
-/
import MarkupTemplate.Proofs.Coverage
import MarkupTemplate.Proofs.TagEnding
import MarkupTemplate.Proofs.Unwinding

namespace MarkupTemplate

/-- The tag of the element that a problem reports as not properly closed. -/
def Diagnostic.unclosed? : Diagnostic → Option String
  | missingClosingTag tag _ => some tag
  | unterminatedStartTag tag _ => some tag
  | nestingTooDeep tag _ _ => some tag
  | _ => none

def Diagnostic.isUnclosed (d : Diagnostic) : Bool := d.unclosed?.isSome

@[simp] theorem Diagnostic.isUnclosed_missingAttributeQuote (name : String)
    (span : Span) :
    (missingAttributeQuote name span).isUnclosed = false := rfl

def Diagnostic.isTagProblem : Diagnostic → Bool
  | missingAttributeQuote .. => true
  | d => d.isUnclosed

theorem Diagnostic.not_unmatched_of_isTagProblem {d : Diagnostic}
    (h : d.isTagProblem = true) : d.isUnmatched = false := by
  cases d <;> first | rfl | simp [isTagProblem, isUnclosed, unclosed?] at h

theorem Diagnostic.isTagProblem_of_isUnclosed {d : Diagnostic}
    (h : d.isUnclosed = true) : d.isTagProblem = true := by
  cases d <;> first | exact h | rfl

theorem Diagnostic.filter_isTagProblem {p : Diagnostic → Bool}
    (hp : ∀ d, p d = true → d.isUnclosed = true) (ds : List Diagnostic) :
    (ds.filter isTagProblem).filter p = ds.filter p := by
  rw [List.filter_filter]
  refine List.filter_congr fun d _ => ?_
  rw [Bool.and_eq_left_iff_imp]
  exact fun hd => isTagProblem_of_isUnclosed (hp d hd)

theorem StartTag.filter_isUnclosed {c : Cursor} {tag : StartTag}
    (h : StartTag.read? c = some tag) (hending : tag.ending ≠ .cut) :
    tag.problems.filter Diagnostic.isUnclosed = [] := by
  rcases StartTag.problems_cases h with ⟨hnone, _⟩ | ⟨_, hcut⟩ |
    ⟨_, _, hquote, _⟩
  · simp [hnone]
  · exact absurd hcut hending
  · simp [hquote]

theorem StartTag.isTagProblem_problems {c : Cursor} {tag : StartTag}
    (h : StartTag.read? c = some tag) :
    ∀ d ∈ tag.problems, d.isTagProblem = true := by
  rcases StartTag.problems_cases h with ⟨hnone, _⟩ | ⟨hbroken, _⟩ |
    ⟨_, _, hquote, _⟩
  · simp [hnone]
  · simp [hbroken, Diagnostic.isTagProblem, Diagnostic.isUnclosed,
      Diagnostic.unclosed?]
  · simp [hquote, Diagnostic.isTagProblem]

/-- An element as it was read: where it begins, its start tag, what was read as
its content, where it ends, and the problems of its tags. -/
structure Origin where
  start : Cursor
  tag : StartTag
  inside : Siblings
  next : Cursor
  problems : List Diagnostic

def Origin.element (x : Origin) : Node :=
  x.tag.element x.inside.nodes (x.start.spanTo x.next)

inductive Origin.Read (o : ReadOptions) : Origin → Prop where
  | alone {c : Cursor} {tag : StartTag} (htag : StartTag.read? c = some tag)
      (hending : tag.ending ≠ .opened) :
      Read o ⟨c, tag, ⟨[], [], tag.next⟩, tag.next, tag.problems⟩
  | tooDeep {c : Cursor} {tag : StartTag} (htag : StartTag.read? c = some tag)
      (hending : tag.ending = .opened) :
      Read o ⟨c, tag, ⟨[], [], tag.next⟩, tag.next,
        tag.problems ++ [.nestingTooDeep tag.name o.maxDepth tag.span]⟩
  | around {c : Cursor} {tag : StartTag} {opened : List String}
      {inside : Siblings}
      (htag : StartTag.read? c = some tag) (hending : tag.ending = .opened)
      (hinside : Reads o (TextMode.ofTag tag.name)
        (tag.name :: opened) tag.next inside) :
      Read o ⟨c, tag, inside, (tag.close inside.next).2,
        tag.problems ++ (tag.close inside.next).1⟩

namespace Origin.Read

variable {o : ReadOptions} {x : Origin}

theorem startTag (h : x.Read o) : StartTag.read? x.start = some x.tag := by
  cases h <;> assumption

theorem leads_inside (h : x.Read o) : x.tag.next.Leads x.inside.next := by
  cases h with
  | alone => exact .refl _
  | tooDeep => exact .refl _
  | around _ _ hinside => exact hinside.leads

theorem leads_next (h : x.Read o) : x.inside.next.Leads x.next := by
  cases h with
  | alone => exact .refl _
  | tooDeep => exact .refl _
  | around => exact StartTag.close_leads _ _

theorem offset_lt (h : x.Read o) : x.start.offset < x.tag.next.offset :=
  (StartTag.read?_leads h.startTag).offset_lt
    (StartTag.read?_length_lt h.startTag)

/-- Behind the problems of the start tag comes at most the one that says that
the element is not closed. -/
theorem problems_eq (h : x.Read o) :
    x.problems = x.tag.problems ∨ ∃ d, x.problems = x.tag.problems ++ [d] ∧
      d.unclosed? = some x.tag.name ∧ d.span = x.tag.span ∧
      x.tag.ending = .opened := by
  cases h with
  | alone => exact Or.inl rfl
  | tooDeep _ hending => exact Or.inr ⟨_, rfl, rfl, rfl, hending⟩
  | @around _ tag _ inside _ hending _ =>
      by_cases hopens : opensEndTag tag.name inside.next.rest = true
      · exact Or.inl (by simp [StartTag.close, hopens])
      · exact Or.inr ⟨.missingClosingTag tag.name tag.span,
          by simp [StartTag.close, hopens], rfl, rfl, hending⟩

theorem isTagProblem (h : x.Read o) :
    ∀ d ∈ x.problems, d.isTagProblem = true := by
  have htag := StartTag.isTagProblem_problems h.startTag
  rcases h.problems_eq with hsame | ⟨d, hmore, hunclosed, _⟩
  · rwa [hsame]
  · intro p hp
    rw [hmore] at hp
    rcases List.mem_append.mp hp with hp | hp
    · exact htag p hp
    · rw [List.mem_singleton.mp hp]
      cases d <;> simp_all [Diagnostic.isTagProblem, Diagnostic.isUnclosed,
        Diagnostic.unclosed?]

/-- The problems that say that an element is not closed: none, or one that has
its name and lies on its start tag. -/
theorem unclosed_cases (h : x.Read o) :
    x.problems.filter Diagnostic.isUnclosed = [] ∨
      ∃ d, x.problems.filter Diagnostic.isUnclosed = [d] ∧
        d.unclosed? = some x.tag.name ∧
        d.span = x.tag.span := by
  rcases h.problems_eq with hsame | ⟨d, hmore, hunclosed, hspan, hopened⟩
  · rw [hsame]
    rcases StartTag.problems_cases h.startTag with ⟨hnone, _⟩ | ⟨hbroken, _⟩ |
      ⟨_, _, hquote, _⟩
    · exact Or.inl (by rw [hnone]; rfl)
    · exact Or.inr ⟨_, by rw [hbroken]; rfl, rfl, rfl⟩
    · exact Or.inl (by rw [hquote]; rfl)
  · refine Or.inr ⟨d, ?_, hunclosed, hspan⟩
    rw [hmore]
    have hd : d.isUnclosed = true := by simp [Diagnostic.isUnclosed, hunclosed]
    simp [StartTag.filter_isUnclosed h.startTag (by simp [hopened]), hd]

theorem unclosed_of_mem (h : x.Read o) {d : Diagnostic} (hd : d ∈ x.problems)
    (hunclosed : d.isUnclosed = true) :
    d.unclosed? = some x.tag.name ∧ d.span = x.tag.span := by
  have hmem := List.mem_filter.mpr ⟨hd, hunclosed⟩
  rcases h.unclosed_cases with hnone | ⟨p, hone, hp⟩
  · simp [hnone] at hmem
  · rw [hone] at hmem
    rwa [List.mem_singleton.mp hmem]

theorem of_not_opened (h : x.Read o) (hending : x.tag.ending ≠ .opened) :
    x.next = x.tag.next ∧ x.problems = x.tag.problems := by
  cases h with
  | alone => exact ⟨rfl, rfl⟩
  | tooDeep _ hopened => exact absurd hopened hending
  | around _ hopened => exact absurd hopened hending

theorem span_start (h : x.Read o) : x.tag.span.start = x.start.offset := by
  rw [StartTag.span_eq h.startTag]
  rfl

theorem span_stop (h : x.Read o) : x.tag.span.stop = x.tag.next.offset := by
  rw [StartTag.span_eq h.startTag]
  rfl

/-- An open quote that was reported stands in the start tag. -/
theorem quote_of_mem (h : x.Read o) {name : String} {span : Span}
    (hmem : .missingAttributeQuote name span ∈ x.problems) :
    x.tag.problems = [.missingAttributeQuote name span] ∧
      x.tag.span.Holds span.start := by
  have htag : .missingAttributeQuote name span ∈ x.tag.problems := by
    rcases h.problems_eq with hsame | ⟨d, hmore, hunclosed, _⟩
    · rwa [hsame] at hmem
    · rw [hmore] at hmem
      refine (List.mem_append.mp hmem).resolve_right fun hlast => ?_
      rw [← List.mem_singleton.mp hlast] at hunclosed
      contradiction
  rcases StartTag.problems_cases h.startTag with
    ⟨hnone, _⟩ | ⟨hbroken, _⟩ | ⟨_, q, hquote, hleads, _, hinside, _⟩
  · simp [hnone] at htag
  · simp [hbroken] at htag
  · rw [hquote, List.mem_singleton] at htag
    obtain ⟨rfl, rfl⟩ := Diagnostic.missingAttributeQuote.inj htag
    refine ⟨hquote, ?_⟩
    rw [Span.Holds, h.span_start, h.span_stop]
    exact ⟨hleads.offset_le, hinside⟩

end Origin.Read

theorem Leaf.not_isTagProblem {o : ReadOptions} {mode : TextMode} {c : Cursor}
    {item : Siblings} (h : Leaf o mode c item) :
    ∀ d ∈ item.diagnostics, d.isTagProblem = false := by
  cases h with
  | comment =>
      simp only [Siblings.comment, Siblings.diagnostics]
      split <;> simp [Diagnostic.isTagProblem, Diagnostic.isUnclosed,
        Diagnostic.unclosed?]
  | cdata =>
      simp only [Siblings.cdata, Siblings.diagnostics]
      split <;> simp [Diagnostic.isTagProblem, Diagnostic.isUnclosed,
        Diagnostic.unclosed?]
  | unmatched =>
      simp [Siblings.unmatched, Siblings.diagnostics, Diagnostic.isTagProblem,
        Diagnostic.isUnclosed, Diagnostic.unclosed?]
  | interpolation =>
      simp only [Siblings.interpolation, Siblings.diagnostics]
      split <;> simp [Diagnostic.isTagProblem, Diagnostic.isUnclosed,
        Diagnostic.unclosed?]
  | text => simp [Siblings.text, Siblings.diagnostics]

theorem Leaf.nodes_within {o : ReadOptions} {mode : TextMode} {c : Cursor}
    {item : Siblings} (h : Leaf o mode c item) :
    ∀ n ∈ item.nodes, n.span.stop ≤ item.next.offset := by
  intro n hn
  cases h with
  | comment =>
      rw [List.mem_singleton.mp hn]
      exact Nat.le_refl _
  | cdata =>
      have hoffset := Enclosed.next_offset "<![CDATA[".toList "]]>".toList c
      simp only [Siblings.cdata] at hn hoffset ⊢
      split at hn
      · simp at hn
      · rw [List.mem_singleton.mp hn]
        simp only [Node.span, Cursor.spanTo, Cursor.advance_offset]
        omega
  | unmatched => simp [Siblings.unmatched] at hn
  | interpolation =>
      rw [List.mem_singleton.mp hn]
      exact Nat.le_refl _
  | text =>
      obtain ⟨content, _, rfl⟩ := List.mem_map.mp hn
      exact Nat.le_refl _

/-- The elements of a run of siblings in the order of the source, each with its
origin.  The problems of their tags are all such problems of the run, and the
end tags that close nothing lie in the run but not on the end tag of an
element. -/
structure Tally (o : ReadOptions) (c : Cursor) (r : Siblings)
    (origins : List Origin) : Prop where
  elements : ∀ depth, origins.map Origin.element =
    Node.elements (Node.preorders depth r.nodes)
  read : ∀ x ∈ origins, x.Read o
  start : ∀ x ∈ origins, c.Leads x.start
  next : ∀ x ∈ origins, x.next.offset ≤ r.next.offset
  apart : origins.Pairwise fun x y => x.tag.next.offset ≤ y.start.offset
  problems : (origins.flatMap Origin.problems).Perm
    (r.diagnostics.filter Diagnostic.isTagProblem)
  inside : ∀ x ∈ origins, x.inside.diagnostics ⊆ r.diagnostics
  nodes : ∀ n ∈ r.nodes, n.span.stop ≤ r.next.offset
  strays : ∀ d ∈ r.diagnostics, d.isUnmatched = true →
    c.offset ≤ d.span.start ∧ d.span.stop ≤ r.next.offset
  endTags : ∀ x ∈ origins, x.inside.next.offset < x.next.offset →
    ∀ d ∈ r.diagnostics, d.isUnmatched = true →
    ¬ d.span.Holds x.inside.next.offset

namespace Tally

variable {o : ReadOptions} {c : Cursor} {first later : Siblings}
  {origins origins' : List Origin}

theorem ends (o : ReadOptions) (c : Cursor) : Tally o c ⟨[], [], c⟩ [] := by
  constructor <;> simp [Siblings.diagnostics, Node.preorders, Node.elements]

theorem of_leaf {mode : TextMode} {item : Siblings} (h : Leaf o mode c item) :
    Tally o c item [] := by
  constructor
  · exact fun depth => (h.elements_nodes depth).symm
  · simp
  · simp
  · simp
  · simp
  · simpa using h.not_isTagProblem
  · simp
  · exact h.nodes_within
  · intro d hd hstray
    cases d <;> first | contradiction | skip
    obtain ⟨next, rfl, _, hspan⟩ := h.eq_unmatched hd
    simp [Diagnostic.span, hspan, Cursor.spanTo, Siblings.unmatched]
  · simp

theorem followedBy (hfirst : Tally o c first origins)
    (hnext : c.Leads first.next) (hlater : Tally o first.next later origins')
    (hend : first.next.Leads later.next) :
    Tally o c (first.followedBy later) (origins ++ origins') := by
  have hle := hnext.offset_le
  have hle' := hend.offset_le
  constructor
  · intro depth
    simp [Node.elements, Node.preorders_append, hfirst.elements depth,
      hlater.elements depth]
  · intro x hx
    exact (List.mem_append.mp hx).elim (hfirst.read x) (hlater.read x)
  · intro x hx
    exact (List.mem_append.mp hx).elim (hfirst.start x) fun hx =>
      hnext.trans (hlater.start x hx)
  · intro x hx
    exact (List.mem_append.mp hx).elim
      (fun hx => Nat.le_trans (hfirst.next x hx) hle') (hlater.next x)
  · refine List.pairwise_append.mpr ⟨hfirst.apart,
      hlater.apart, fun x hx y hy => ?_⟩
    have hread := hfirst.read x hx
    have hx' := hfirst.next x hx
    have hy' := (hlater.start y hy).offset_le
    have hinside := hread.leads_inside.offset_le
    have hout := hread.leads_next.offset_le
    omega
  · simpa using hfirst.problems.append hlater.problems
  · intro x hx d hd
    rw [Siblings.diagnostics_followedBy, List.mem_append]
    exact (List.mem_append.mp hx).imp (fun hx => hfirst.inside x hx hd)
      (fun hx => hlater.inside x hx hd)
  · intro n hn
    exact (List.mem_append.mp hn).elim
      (fun hn => Nat.le_trans (hfirst.nodes n hn) hle') (hlater.nodes n)
  · intro d hd hstray
    rw [Siblings.diagnostics_followedBy, List.mem_append] at hd
    rcases hd with hd | hd
    · obtain ⟨hstart, hstop⟩ := hfirst.strays d hd hstray
      exact ⟨hstart, Nat.le_trans hstop hle'⟩
    · obtain ⟨hstart, hstop⟩ := hlater.strays d hd hstray
      exact ⟨Nat.le_trans hle hstart, hstop⟩
  · intro x hx hclosed d hd hstray hholds
    obtain ⟨hfrom, hto⟩ := hholds
    rw [Siblings.diagnostics_followedBy, List.mem_append] at hd
    rcases List.mem_append.mp hx with hx | hx <;> rcases hd with hd | hd
    · exact hfirst.endTags x hx hclosed d hd hstray ⟨hfrom, hto⟩
    · have hbehind := (hlater.strays d hd hstray).1
      have hbefore := hfirst.next x hx
      omega
    · have hbefore := (hfirst.strays d hd hstray).2
      have hread := hlater.read x hx
      have hstart := (hlater.start x hx).offset_le
      have htag := hread.offset_lt
      have hinside := hread.leads_inside.offset_le
      omega
    · exact hlater.endTags x hx hclosed d hd hstray ⟨hfrom, hto⟩

/-- An element in front of the elements of its content. -/
theorem single {x : Origin} {item : Siblings} (hx : x.Read o)
    (hinside : Tally o x.tag.next x.inside origins)
    (hnodes : item.nodes = [x.element]) (hnext : item.next = x.next)
    (hproblems : item.diagnostics.Perm (x.problems ++ x.inside.diagnostics)) :
    Tally o x.start item (x :: origins) := by
  have htag := StartTag.read?_leads hx.startTag
  have hout := hx.leads_next.offset_le
  have hsub : x.inside.diagnostics ⊆ item.diagnostics :=
    fun d hd => hproblems.mem_iff.mpr (List.mem_append_right _ hd)
  -- no end tag that closes nothing is among the problems of the tags
  have hstray : ∀ d ∈ item.diagnostics, d.isUnmatched = true →
      d ∈ x.inside.diagnostics := by
    intro d hd hunmatched
    refine (List.mem_append.mp (hproblems.mem_iff.mp hd)).resolve_left fun hd =>
      ?_
    rw [Diagnostic.not_unmatched_of_isTagProblem
      (hx.isTagProblem d hd)] at hunmatched
    contradiction
  constructor
  · intro depth
    rw [hnodes, List.map_cons, hinside.elements (depth + 1)]
    simp [Node.elements, Node.preorders, Node.preorder, Origin.element,
      StartTag.element, Node.kind]
  · exact List.forall_mem_cons.mpr ⟨hx, hinside.read⟩
  · exact List.forall_mem_cons.mpr
      ⟨.refl _, fun y hy => htag.trans (hinside.start y hy)⟩
  · rw [hnext]
    exact List.forall_mem_cons.mpr
      ⟨Nat.le_refl _, fun y hy => Nat.le_trans (hinside.next y hy) hout⟩
  · exact List.Pairwise.cons
      (fun y hy => (hinside.start y hy).offset_le) hinside.apart
  · have hfilter := hproblems.filter Diagnostic.isTagProblem
    rw [List.filter_append, List.filter_eq_self.mpr hx.isTagProblem] at hfilter
    exact (hinside.problems.append_left x.problems).trans hfilter.symm
  · exact List.forall_mem_cons.mpr
      ⟨hsub, fun y hy => List.Subset.trans (hinside.inside y hy) hsub⟩
  · rw [hnodes, hnext]
    intro n hn
    rw [List.mem_singleton.mp hn]
    exact Nat.le_refl _
  · intro d hd hunmatched
    obtain ⟨hfrom, hto⟩ := hinside.strays d (hstray d hd hunmatched) hunmatched
    rw [hnext]
    exact ⟨Nat.le_trans htag.offset_le hfrom, Nat.le_trans hto hout⟩
  · refine List.forall_mem_cons.mpr ⟨fun _ d hd hunmatched hholds => ?_, ?_⟩
    · have hto := (hinside.strays d (hstray d hd hunmatched) hunmatched).2
      exact absurd hholds.2 (Nat.not_lt.mpr hto)
    · exact fun y hy hclosed d hd hunmatched =>
        hinside.endTags y hy hclosed d (hstray d hd hunmatched) hunmatched

end Tally

theorem StartTag.tally_alone {o : ReadOptions} {c : Cursor} {tag : StartTag}
    {problems : List Diagnostic}
    (h : Origin.Read o ⟨c, tag, ⟨[], [], tag.next⟩, tag.next,
      tag.problems ++ problems⟩) :
    ∃ origins, Tally o c (tag.alone c problems) origins := by
  have hspan : tag.span = c.spanTo tag.next := StartTag.span_eq h.startTag
  refine ⟨_, Tally.single h (Tally.ends o _) ?_ rfl ?_⟩
  · simp [StartTag.alone, Origin.element, hspan]
  · rw [StartTag.diagnostics_alone]
    simp [Siblings.diagnostics]

theorem StartTag.tally_around {o : ReadOptions} {c : Cursor} {tag : StartTag}
    {opened : List String} {inside : Siblings} {origins : List Origin}
    (htag : StartTag.read? c = some tag) (hending : tag.ending = .opened)
    (hreads : Reads o (TextMode.ofTag tag.name)
      (tag.name :: opened) tag.next inside)
    (hinside : Tally o tag.next inside origins) :
    ∃ origins', Tally o c (tag.around c inside) origins' := by
  refine ⟨_, Tally.single (.around htag hending hreads) hinside rfl rfl ?_⟩
  rw [StartTag.diagnostics_around, List.append_assoc, List.append_assoc]
  exact (List.perm_append_comm).append_left tag.problems

theorem Reads.tally {o : ReadOptions} {mode : TextMode}
    {opened : List String} {c : Cursor} {r : Siblings}
    (h : Reads o mode opened c r) : ∃ origins, Tally o c r origins := by
  induction h with
  | ends => exact ⟨[], .ends o _⟩
  | leaf _ hleaf hlater ih =>
      obtain ⟨_, ih⟩ := ih
      exact ⟨_, (Tally.of_leaf hleaf).followedBy hleaf.leads ih hlater.leads⟩
  | @alone _ c tag _ _ htag hending hlater ih =>
      obtain ⟨_, ih⟩ := ih
      have hread := Origin.Read.alone (o := o) htag hending
      rw [← tag.problems.append_nil] at hread
      obtain ⟨_, hfirst⟩ := StartTag.tally_alone hread
      exact ⟨_, hfirst.followedBy (StartTag.read?_leads htag) ih hlater.leads⟩
  | tooDeep _ htag hending _ hlater ih =>
      obtain ⟨_, ih⟩ := ih
      obtain ⟨_, hfirst⟩ := StartTag.tally_alone (.tooDeep htag hending)
      exact ⟨_, hfirst.followedBy (StartTag.read?_leads htag) ih hlater.leads⟩
  | @element _ c tag inside _ _ htag hending _ hinside hlater ihinside ih =>
      obtain ⟨_, ihinside⟩ := ihinside
      obtain ⟨_, ih⟩ := ih
      obtain ⟨_, hfirst⟩ := StartTag.tally_around htag hending hinside ihinside
      exact ⟨_, hfirst.followedBy ((StartTag.read?_leads htag).trans
        (hinside.leads.trans (tag.close_leads inside.next))) ih hlater.leads⟩

namespace Tally

variable {o : ReadOptions} {c : Cursor} {r : Siblings}
  {origins : List Origin} {x : Origin}

/-- The start tags of two elements lie apart. -/
theorem exists_apart (h : Tally o c r origins) (hx : x ∈ origins) :
    ∃ before after, origins = before ++ x :: after ∧
      ∀ y ∈ before ++ after, y ∈ origins ∧
      (y.tag.next.offset ≤ x.start.offset ∨
        x.tag.next.offset ≤ y.start.offset) := by
  obtain ⟨before, after, rfl⟩ := List.append_of_mem hx
  obtain ⟨_, hafter, hbefore⟩ := List.pairwise_append.mp h.apart
  refine ⟨before, after, rfl, fun y hy => ?_⟩
  rcases List.mem_append.mp hy with hy | hy
  · exact ⟨List.mem_append_left _ hy,
      Or.inl (hbefore y hy x List.mem_cons_self)⟩
  · exact ⟨List.mem_append_right _ (List.mem_cons_of_mem _ hy),
      Or.inr ((List.pairwise_cons.mp hafter).1 y hy)⟩

/-- No two elements begin at one place. -/
theorem exists_start_ne (h : Tally o c r origins) (hx : x ∈ origins) :
    ∃ before after, origins = before ++ x :: after ∧
      ∀ y ∈ before ++ after, y ∈ origins ∧
      y.start.offset ≠ x.start.offset := by
  obtain ⟨before, after, hsplit, hapart⟩ := h.exists_apart hx
  refine ⟨before, after, hsplit, fun y hy => ?_⟩
  obtain ⟨hmem, hy⟩ := hapart y hy
  have hxlt := (h.read x hx).offset_lt
  have hylt := (h.read y hmem).offset_lt
  exact ⟨hmem, by omega⟩

/-- A place in the start tags of two elements is in one of them. -/
theorem eq_of_holds (h : Tally o c r origins) (hx : x ∈ origins) {y : Origin}
    (hy : y ∈ origins) {offset : Nat} (hxholds : x.tag.span.Holds offset)
    (hyholds : y.tag.span.Holds offset) : y = x := by
  obtain ⟨before, after, hsplit, hapart⟩ := h.exists_apart hx
  rw [Span.Holds, (h.read x hx).span_start, (h.read x hx).span_stop] at hxholds
  rw [Span.Holds, (h.read y hy).span_start, (h.read y hy).span_stop] at hyholds
  by_contra hne
  have hother : y ∈ before ++ after := by
    rw [hsplit] at hy
    simpa [hne] using hy
  have happart := (hapart y hother).2
  omega

end Tally

end MarkupTemplate
