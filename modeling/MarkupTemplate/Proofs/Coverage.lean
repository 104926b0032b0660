/-
No byte of the source is lost.  Between the tags of an element, and in the
whole source, the nodes stand one behind the other, and what lies between them
are the end tags that close nothing and the markers of CDATA sections.
-/
import MarkupTemplate.Proofs.Placement

namespace MarkupTemplate

def Span.Holds (s : Span) (offset : Nat) : Prop :=
  s.start ≤ offset ∧ offset < s.stop

instance (s : Span) (offset : Nat) : Decidable (s.Holds offset) :=
  inferInstanceAs (Decidable (_ ∧ _))

/-- What a stretch of content is: a node, an end tag that closes nothing, or a
marker of a CDATA section. -/
inductive Tile where
  | node (node : Node)
  | stray (problem : Diagnostic)
  | marker (span : Span)

namespace Tile

def span : Tile → Span
  | node n => n.span
  | stray problem => problem.span
  | marker span => span

def node? : Tile → Option Node
  | node n => some n
  | _ => none

def stray? : Tile → Option Diagnostic
  | stray problem => some problem
  | _ => none

def marker? : Tile → Option Span
  | marker span => some span
  | _ => none

theorem node?_eq_some {t : Tile} {n : Node} :
    t.node? = some n ↔ t = .node n := by
  cases t <;> simp [node?]

/-- The stretches of the tiles that are no nodes. -/
theorem mem_gaps_iff {ts : List Tile} {g : Span} :
    g ∈ (ts.filterMap stray?).map Diagnostic.span ++ ts.filterMap marker? ↔
      ∃ t ∈ ts, t.node? = none ∧ t.span = g := by
  simp only [List.mem_append, List.mem_map, List.mem_filterMap]
  constructor
  · rintro (⟨d, ⟨t, ht, hd⟩, rfl⟩ | ⟨t, ht, hg⟩)
    · refine ⟨t, ht, ?_⟩
      cases t <;> simp_all [stray?, node?, span]
    · refine ⟨t, ht, ?_⟩
      cases t <;> simp_all [marker?, node?, span]
  · rintro ⟨t, ht, hnone, rfl⟩
    cases t with
    | node n => simp [node?] at hnone
    | stray d => exact Or.inl ⟨d, ⟨_, ht, rfl⟩, rfl⟩
    | marker s => exact Or.inr ⟨_, ht, rfl⟩

end Tile

/-- Tiles right behind each other, from one offset to another, none of them
empty. -/
def Laid : Nat → List Tile → Nat → Prop
  | start, [], stop => start = stop
  | start, t :: ts, stop =>
      t.span.start = start ∧ start < t.span.stop ∧ Laid t.span.stop ts stop

namespace Laid

variable {start middle stop : Nat} {ts : List Tile}

theorem append {first later : List Tile} (hfirst : Laid start first middle)
    (hlater : Laid middle later stop) : Laid start (first ++ later) stop := by
  induction first generalizing start with
  | nil =>
      rw [show start = middle from hfirst]
      exact hlater
  | cons t ts ih =>
      obtain ⟨hstart, hlt, hrest⟩ := hfirst
      exact ⟨hstart, hlt, ih hrest⟩

theorem le (h : Laid start ts stop) : start ≤ stop := by
  induction ts generalizing start with
  | nil => exact Nat.le_of_eq h
  | cons t ts ih =>
      obtain ⟨_, hlt, hrest⟩ := h
      exact Nat.le_trans (Nat.le_of_lt hlt) (ih hrest)

theorem inside (h : Laid start ts stop) :
    ∀ t ∈ ts, start ≤ t.span.start ∧ t.span.start < t.span.stop ∧
      t.span.stop ≤ stop := by
  induction ts generalizing start with
  | nil => simp
  | cons t ts ih =>
      obtain ⟨hstart, hlt, hrest⟩ := h
      intro u hu
      rcases List.mem_cons.mp hu with rfl | hu
      · exact ⟨Nat.le_of_eq hstart.symm, by omega, hrest.le⟩
      · obtain ⟨hfrom, hto⟩ := ih hrest u hu
        exact ⟨by omega, hto⟩

theorem pairwise (h : Laid start ts stop) :
    ts.Pairwise fun t u => t.span.stop ≤ u.span.start := by
  induction ts generalizing start with
  | nil => exact List.Pairwise.nil
  | cons t ts ih =>
      obtain ⟨_, _, hrest⟩ := h
      exact List.Pairwise.cons (fun u hu => (hrest.inside u hu).1) (ih hrest)

theorem exists_holds (h : Laid start ts stop) {offset : Nat}
    (hstart : start ≤ offset) (hstop : offset < stop) :
    ∃ t ∈ ts, t.span.Holds offset := by
  induction ts generalizing start with
  | nil =>
      have heq : start = stop := h
      omega
  | cons t ts ih =>
      obtain ⟨hfrom, _, hrest⟩ := h
      by_cases hhere : offset < t.span.stop
      · exact ⟨t, List.mem_cons_self, by rw [hfrom]; exact hstart, hhere⟩
      · obtain ⟨u, hu, hholds⟩ := ih hrest (Nat.le_of_not_lt hhere)
        exact ⟨u, List.mem_cons_of_mem _ hu, hholds⟩

/-- A byte lies in one tile only. -/
theorem eq_of_holds (h : Laid start ts stop) {t u : Tile}
    {offset : Nat} (ht : t ∈ ts) (hu : u ∈ ts) (htholds : t.span.Holds offset)
    (huholds : u.span.Holds offset) : t = u := by
  induction ts generalizing start with
  | nil => simp at ht
  | cons v ts ih =>
      obtain ⟨_, _, hrest⟩ := h
      have hbehind : ∀ w ∈ ts, v.span.stop ≤ w.span.start := fun w hw =>
        (hrest.inside w hw).1
      obtain ⟨htstart, htstop⟩ := htholds
      obtain ⟨hustart, hustop⟩ := huholds
      rcases List.mem_cons.mp ht with hthere | htlater <;>
        rcases List.mem_cons.mp hu with huhere | hulater
      · rw [hthere, huhere]
      · have happart := hbehind u hulater
        rw [hthere] at htstop
        omega
      · have happart := hbehind t htlater
        rw [huhere] at hustop
        omega
      · exact ih hrest htlater hulater

end Laid

/-- The stretches of the markers of the CDATA section at a cursor. -/
def cdataMarkers (c : Cursor) : List Span :=
  let e := Enclosed.read "<![CDATA[".toList "]]>".toList c
  let inside := c.advance "<![CDATA[".toList
  c.spanTo inside :: if e.closed then [(inside.advance e.body).spanTo e.next]
  else []

/-- The content of a node in the source, with the end tags that close nothing
and the CDATA sections found in it. -/
structure Interior where
  node : Node
  span : Span
  strays : List Diagnostic
  sections : List Cursor

/-- The stretches of an interior that belong to no node. -/
def Interior.gaps (i : Interior) : List Span :=
  i.strays.map Diagnostic.span ++ i.sections.flatMap cdataMarkers

/-- The nodes below lie in the interior one behind the other, and its other
bytes are those of the gaps. -/
structure Interior.Covered (source : Cursor) (i : Interior) : Prop where
  nonempty : ∀ n ∈ i.node.children, n.span.start < n.span.stop
  inside : ∀ n ∈ i.node.children,
    i.span.start ≤ n.span.start ∧ n.span.stop ≤ i.span.stop
  increasing : i.node.children.Pairwise fun m n => m.span.stop ≤ n.span.start
  gaps_inside : ∀ g ∈ i.gaps,
    i.span.start ≤ g.start ∧ g.start < g.stop ∧ g.stop ≤ i.span.stop
  uncovered : ∀ offset, i.span.Holds offset →
    ((∀ n ∈ i.node.children, ¬ n.span.Holds offset) ↔
      ∃ g ∈ i.gaps, g.Holds offset)
  sections : ∀ c ∈ i.sections, source.Leads c ∧ "<![CDATA[".toList <+: c.rest

theorem Laid.covered {source : Cursor} {i : Interior} {ts : List Tile}
    (hlaid : Laid i.span.start ts i.span.stop)
    (hnodes : ts.filterMap Tile.node? = i.node.children)
    (hstrays : ts.filterMap Tile.stray? = i.strays)
    (hmarkers : ts.filterMap Tile.marker? = i.sections.flatMap cdataMarkers)
    (hsections : ∀ c ∈ i.sections, source.Leads c ∧
      "<![CDATA[".toList <+: c.rest) :
    i.Covered source := by
  have htile : ∀ n ∈ i.node.children, Tile.node n ∈ ts := by
    intro n hn
    rw [← hnodes] at hn
    obtain ⟨t, ht, hsome⟩ := List.mem_filterMap.mp hn
    rwa [Tile.node?_eq_some.mp hsome] at ht
  have hgap : ∀ g, g ∈ i.gaps ↔ ∃ t ∈ ts, t.node? = none ∧ t.span = g := by
    intro g
    rw [Interior.gaps, ← hstrays, ← hmarkers, Tile.mem_gaps_iff]
  constructor
  · exact fun n hn => (hlaid.inside _ (htile n hn)).2.1
  · intro n hn
    obtain ⟨hstart, _, hstop⟩ := hlaid.inside _ (htile n hn)
    exact ⟨hstart, hstop⟩
  · rw [← hnodes, List.pairwise_filterMap]
    apply hlaid.pairwise.imp
    intro t u hapart m hm n hn
    rw [Tile.node?_eq_some] at hm hn
    subst hm hn
    exact hapart
  · intro g hg
    obtain ⟨t, ht, _, rfl⟩ := (hgap g).mp hg
    exact hlaid.inside t ht
  · intro offset hoffset
    constructor
    · intro hnone
      obtain ⟨t, ht, hholds⟩ := hlaid.exists_holds hoffset.1 hoffset.2
      cases hnode : t.node? with
      | none => exact ⟨t.span, (hgap _).mpr ⟨t, ht, hnode, rfl⟩, hholds⟩
      | some n =>
          have hn : n ∈ i.node.children := by
            rw [← hnodes]
            exact List.mem_filterMap.mpr ⟨t, ht, hnode⟩
          rw [Tile.node?_eq_some.mp hnode] at hholds
          exact absurd hholds (hnone n hn)
    · rintro ⟨g, hg, hholds⟩ n hn hcovered
      obtain ⟨t, ht, hnone, rfl⟩ := (hgap g).mp hg
      have hsame := hlaid.eq_of_holds ht (htile n hn) hholds hcovered
      simp [hsame, Tile.node?] at hnone
  · exact hsections

def Node.elements (listed : List (Nat × Node)) : List Node :=
  (listed.map Prod.snd).filter (·.kind == .element)

theorem Leaf.elements_nodes {o : ReadOptions} {mode : TextMode} {c : Cursor}
    {item : Siblings} (h : Leaf o mode c item) (depth : Nat) :
    Node.elements (Node.preorders depth item.nodes) = [] := by
  have hnone : ∀ node ∈ item.nodes, node.kind ≠ .element :=
    fun node hnode => (h.isLeaf_nodes node hnode).2
  rw [Node.preorders_leaves h.isLeaf_nodes]
  simpa [Node.elements, Function.comp_def] using hnone

/-- An interior lies between the start tag of its element and the end tag, if
there is one. -/
structure Interior.BetweenTags (source : Cursor) (i : Interior) : Prop where
  bounds : i.node.span.start < i.span.start ∧ i.span.start ≤ i.span.stop ∧
    i.span.stop ≤ i.node.span.stop
  startTag : ∃ c tag, source.Leads c ∧ c.offset = i.node.span.start ∧
    StartTag.read? c = some tag ∧ tag.next.offset = i.span.start ∧
    i.node = tag.element i.node.children i.node.span
  endTag : i.span.stop = i.node.span.stop ∨ ∃ c name next, source.Leads c ∧
    c.offset = i.span.stop ∧ endTag? c = some (name, next) ∧
    next.offset = i.node.span.stop ∧
    ∀ tag ∈ i.node.label?, foldCase name = foldCase tag
  attributes_inside : ∀ a ∈ i.node.attributes,
    i.node.span.start ≤ a.span.start ∧ a.span.stop ≤ i.span.start
  attributes_increasing : i.node.attributes.Pairwise fun a b =>
    a.span.stop ≤ b.span.start

/-- How a run of siblings fills the source from a cursor on: the tiles in it,
the CDATA sections among them, and the interiors of the elements below. -/
structure Layout (c : Cursor) (r : Siblings) (tiles : List Tile)
    (sections : List Cursor) (inner : List Interior) : Prop where
  laid : Laid c.offset tiles r.next.offset
  nodes : tiles.filterMap Tile.node? = r.nodes
  markers : tiles.filterMap Tile.marker? = sections.flatMap cdataMarkers
  sections : ∀ s ∈ sections, c.Leads s ∧ "<![CDATA[".toList <+: s.rest
  elements : ∀ depth, inner.map Interior.node =
    Node.elements (Node.preorders depth r.nodes)
  covered : ∀ i ∈ inner, i.Covered c
  betweenTags : ∀ i ∈ inner, i.BetweenTags c
  strays : (tiles.filterMap Tile.stray? ++ inner.flatMap Interior.strays).Perm
    (r.diagnostics.filter Diagnostic.isUnmatched)

theorem Interior.Covered.of_leads {c d : Cursor} {i : Interior}
    (h : i.Covered d) (hc : c.Leads d) : i.Covered c := by
  refine ⟨h.nonempty, h.inside, h.increasing, h.gaps_inside,
    h.uncovered, fun s hs => ?_⟩
  exact ⟨hc.trans (h.sections s hs).1, (h.sections s hs).2⟩

theorem Interior.BetweenTags.of_leads {c d : Cursor} {i : Interior}
    (h : i.BetweenTags d) (hc : c.Leads d) : i.BetweenTags c := by
  refine ⟨h.bounds, ?_, ?_, h.attributes_inside, h.attributes_increasing⟩
  · obtain ⟨e, tag, he, hread⟩ := h.startTag
    exact ⟨e, tag, hc.trans he, hread⟩
  · apply h.endTag.imp_right
    rintro ⟨e, name, next, he, hread⟩
    exact ⟨e, name, next, hc.trans he, hread⟩

namespace Layout

variable {c : Cursor} {first later : Siblings} {tiles tiles' : List Tile}
  {sections sections' : List Cursor} {inner inner' : List Interior}

/-- A node that has these siblings as its children is covered by them. -/
theorem covered_interior (h : Layout c first tiles sections inner) (node : Node)
    (hnode : node.children = first.nodes) :
    Interior.Covered c
      ⟨node, c.spanTo first.next, tiles.filterMap Tile.stray?, sections⟩ :=
  Laid.covered h.laid (h.nodes.trans hnode.symm) rfl h.markers h.sections

theorem followedBy (hfirst : Layout c first tiles sections inner)
    (hlater : Layout first.next later tiles' sections' inner')
    (hnext : c.Leads first.next) :
    Layout c (first.followedBy later) (tiles ++ tiles') (sections ++ sections')
      (inner ++ inner') := by
  constructor
  · exact hfirst.laid.append hlater.laid
  · simp [hfirst.nodes, hlater.nodes]
  · simp [hfirst.markers, hlater.markers]
  · intro s hs
    rcases List.mem_append.mp hs with hs | hs
    · exact hfirst.sections s hs
    · exact ⟨hnext.trans (hlater.sections s hs).1, (hlater.sections s hs).2⟩
  · intro depth
    simp [Node.elements, Node.preorders_append, hfirst.elements depth,
      hlater.elements depth]
  · intro i hi
    rcases List.mem_append.mp hi with hi | hi
    · exact hfirst.covered i hi
    · exact (hlater.covered i hi).of_leads hnext
  · intro i hi
    rcases List.mem_append.mp hi with hi | hi
    · exact hfirst.betweenTags i hi
    · exact (hlater.betweenTags i hi).of_leads hnext
  · have hboth := hfirst.strays.append hlater.strays
    simp only [List.filterMap_append, List.flatMap_append,
      Siblings.diagnostics_followedBy, List.filter_append,
      List.append_assoc] at hboth ⊢
    exact ((List.perm_append_comm_assoc _ _ _).append_left _).trans hboth

theorem ends (c : Cursor) : Layout c ⟨[], [], c⟩ [] [] [] := by
  constructor <;> simp [Laid, Siblings.diagnostics, Node.preorders,
    Node.elements]

/-- Nodes that hold nothing, and no elements, have no interiors. -/
theorem of_leaf {o : ReadOptions} {mode : TextMode} {item : Siblings}
    (hleaf : Leaf o mode c item) (hlaid : Laid c.offset tiles item.next.offset)
    (hnodes : tiles.filterMap Tile.node? = item.nodes)
    (hmarkers : tiles.filterMap Tile.marker? = sections.flatMap cdataMarkers)
    (hsections : ∀ s ∈ sections, c.Leads s ∧ "<![CDATA[".toList <+: s.rest)
    (hstrays : tiles.filterMap Tile.stray? =
      item.diagnostics.filter Diagnostic.isUnmatched) :
    Layout c item tiles sections [] := by
  exact ⟨hlaid, hnodes, hmarkers,
    hsections, fun depth => (hleaf.elements_nodes depth).symm, by simp, by
      simp, by simp [hstrays]⟩

end Layout

theorem Laid.single {c d : Cursor} {t : Tile} (hspan : t.span = c.spanTo d)
    (hlt : c.offset < d.offset) : Laid c.offset [t] d.offset := by
  simp [Laid, hspan, Cursor.spanTo, hlt]

theorem Enclosed.next_eq (opening closing : List Char) (c : Cursor) :
    let e := Enclosed.read opening closing c
    let after := (c.advance opening).advance e.body
    e.next = if e.closed then after.advance closing else after := by
  simp only [Enclosed.read]
  split <;> rfl

/-- A CDATA section is its opening marker, its text unless that is empty, and
its closing marker if it is there. -/
theorem Siblings.exists_laid_cdata (c : Cursor) :
    ∃ tiles, Laid c.offset tiles (Siblings.cdata c).next.offset ∧
      tiles.filterMap Tile.node? = (Siblings.cdata c).nodes ∧
      tiles.filterMap Tile.marker? = cdataMarkers c ∧
      tiles.filterMap Tile.stray? = [] := by
  have hnext := Enclosed.next_eq "<![CDATA[".toList "]]>".toList c
  simp only at hnext
  simp only [Siblings.cdata, cdataMarkers]
  generalize Enclosed.read "<![CDATA[".toList "]]>".toList c = e at hnext ⊢
  generalize hinside : c.advance "<![CDATA[".toList = inside at hnext ⊢
  have hpast : ∀ (d : Cursor) (taken : List Char), taken ≠ [] →
      d.offset < (d.advance taken).offset :=
    fun d taken hne => Nat.lt_add_of_pos_right (byteLength_pos hne)
  have hopens : Laid c.offset [.marker (c.spanTo inside)] inside.offset :=
    Laid.single rfl (by rw [← hinside]; exact hpast _ _ (by simp))
  have hbody : Laid inside.offset (if e.body.isEmpty then [] else
      [.node
        (.text (String.ofList e.body)
          (inside.spanTo (inside.advance e.body)) none)])
      (inside.advance e.body).offset := by
    split
    · next hempty => simp [Laid, List.isEmpty_iff.mp hempty]
    · next hfull => exact Laid.single rfl (hpast _ _ (by simpa using hfull))
  have hcloses : Laid (inside.advance e.body).offset
      (if e.closed then [.marker ((inside.advance e.body).spanTo e.next)]
      else [])
      e.next.offset := by
    split
    · next hclosed =>
        rw [if_pos hclosed] at hnext
        exact Laid.single rfl (by rw [hnext]; exact hpast _ _ (by simp))
    · next hopen =>
        rw [if_neg hopen] at hnext
        simp [Laid, hnext]
  refine ⟨_, (hopens.append hbody).append hcloses, ?_⟩
  split <;> split <;> exact ⟨rfl, rfl, rfl⟩

theorem Leaf.layout {o : ReadOptions} (hpreserve : o.whitespace = .preserve)
    {mode : TextMode} {c : Cursor} {item : Siblings} (h : Leaf o mode c item)
    (hrest : c.rest ≠ []) :
    ∃ tiles sections, Layout c item tiles sections [] := by
  have hleaf := h
  cases h with
  | comment =>
      have hlt := hleaf.leads.offset_lt (Siblings.comment_length_lt hrest)
      refine ⟨[.node _], [],
        Layout.of_leaf hleaf (Laid.single rfl hlt) rfl rfl (by simp) ?_⟩
      simp only [Siblings.comment, Siblings.diagnostics]
      split <;> simp [Diagnostic.isUnmatched, Tile.stray?]
  | cdata hmode hopening =>
      obtain ⟨tiles, hlaid, hnodes, hmarkers, hstrays⟩ :=
        Siblings.exists_laid_cdata c
      refine ⟨tiles, [c],
        Layout.of_leaf hleaf hlaid hnodes (by simpa using hmarkers) ?_ ?_⟩
      · simpa using ⟨Cursor.Leads.refl c, hopening⟩
      · simp only [hstrays, Siblings.cdata, Siblings.diagnostics]
        split <;> simp [Diagnostic.isUnmatched]
  | unmatched hmode hend =>
      have hlt := hleaf.leads.offset_lt (endTag?_length_lt hend)
      exact ⟨[.stray _], [],
        Layout.of_leaf hleaf (Laid.single rfl hlt) rfl rfl (by simp) rfl⟩
  | interpolation =>
      have hlt := hleaf.leads.offset_lt (Siblings.interpolation_length_lt hrest)
      refine ⟨[.node _], [],
        Layout.of_leaf hleaf (Laid.single rfl hlt) rfl rfl (by simp) ?_⟩
      simp only [Siblings.interpolation, Siblings.diagnostics]
      split <;> simp [Diagnostic.isUnmatched, Tile.stray?]
  | text =>
      have hlt := hleaf.leads.offset_lt (Siblings.text_length_lt o mode hrest)
      refine ⟨[.node (.text (String.ofList (Siblings.textRun mode c.rest))
          (c.spanTo (Siblings.text o mode c).next) none)], [],
        Layout.of_leaf hleaf (Laid.single rfl hlt) ?_ rfl (by simp) rfl⟩
      simp [Siblings.text, hpreserve, Tile.node?]

namespace StartTag

variable {c : Cursor} {tag : StartTag}

/-- The interior of an element, from its start tag to the place where its
content ends. -/
theorem betweenTags (h : StartTag.read? c = some tag) {closing next : Cursor}
    {children : List Node} {strays : List Diagnostic} {sections : List Cursor}
    (hclosing : tag.next.Leads closing) (hnext : closing.Leads next)
    (hend : closing.offset = next.offset ∨
      ∃ name, endTag? closing = some (name, next) ∧
      foldCase name = foldCase tag.name) :
    Interior.BetweenTags c ⟨tag.element children (c.spanTo next),
      tag.next.spanTo closing, strays, sections⟩ := by
  have hleads := StartTag.read?_leads h
  have hattributes := StartTag.inOrder_attributes h
  constructor
  · exact ⟨hleads.offset_lt (StartTag.read?_length_lt h), hclosing.offset_le,
      hnext.offset_le⟩
  · exact ⟨c, tag, Cursor.Leads.refl c, rfl, h, rfl, rfl⟩
  · apply hend.imp_right
    rintro ⟨name, hread, hname⟩
    refine ⟨closing, name, next, hleads.trans hclosing, rfl, hread, rfl, ?_⟩
    simpa [StartTag.element, Node.label?] using hname
  · intro a ha
    exact hattributes.bounds a.span (List.mem_map_of_mem ha)
  · exact List.pairwise_map.mp hattributes.pairwise

theorem layout_alone (h : StartTag.read? c = some tag)
    (problems : List Diagnostic)
    (hproblems : problems.filter Diagnostic.isUnmatched = []) :
    ∃ tiles inner, Layout c (tag.alone c problems) tiles [] inner := by
  have hleads := StartTag.read?_leads h
  have hlt := hleads.offset_lt (StartTag.read?_length_lt h)
  have hspan := StartTag.span_eq h
  refine ⟨[.node (tag.element [] tag.span)],
    [⟨tag.element [] tag.span, tag.next.spanTo tag.next, [], []⟩], ?_⟩
  constructor
  · exact Laid.single hspan hlt
  · rfl
  · rfl
  · simp
  · simp [Node.elements, Node.preorders, Node.preorder, StartTag.alone,
      StartTag.element, Node.kind]
  · intro i hi
    rw [List.mem_singleton.mp hi]
    exact Laid.covered (show Laid tag.next.offset [] tag.next.offset from rfl)
      rfl rfl rfl (by simp)
  · intro i hi
    rw [List.mem_singleton.mp hi, hspan]
    exact betweenTags h (Cursor.Leads.refl _) (Cursor.Leads.refl _) (Or.inl rfl)
  · simp [filter_problems h, hproblems, Tile.stray?]

theorem close_cases (tag : StartTag) (hname : isTagName tag.name.toList = true)
    (d : Cursor) :
    d.offset = (tag.close d).2.offset ∨
      ∃ name, endTag? d = some (name, (tag.close d).2) ∧
      foldCase name = foldCase tag.name := by
  unfold StartTag.close
  split
  · next hopens =>
      obtain ⟨name, next, hend, hfold⟩ := endTag?_of_opensEndTag hname hopens
      exact Or.inr ⟨name, by simp [hend], hfold⟩
  · exact Or.inl rfl

theorem layout_around (h : StartTag.read? c = some tag) {inside : Siblings}
    {tiles : List Tile} {sections : List Cursor} {inner : List Interior}
    (hnext : tag.next.Leads inside.next)
    (hinside : Layout tag.next inside tiles sections inner) :
    ∃ tiles' inner', Layout c (tag.around c inside) tiles' [] inner' := by
  have hin := StartTag.read?_leads h
  have hclose := tag.close_leads inside.next
  have hout := hnext.trans hclose
  have hlt : c.offset < (tag.close inside.next).2.offset :=
    Nat.lt_of_lt_of_le (hin.offset_lt (StartTag.read?_length_lt h))
      hout.offset_le
  let node := tag.element inside.nodes (c.spanTo (tag.close inside.next).2)
  let interior : Interior :=
    ⟨node, tag.next.spanTo inside.next, tiles.filterMap Tile.stray?, sections⟩
  refine ⟨[.node node], interior :: inner, ?_⟩
  constructor
  · exact Laid.single rfl hlt
  · rfl
  · rfl
  · simp
  · intro depth
    simp [Node.elements, Node.preorders, Node.preorder, StartTag.around,
      StartTag.element, Node.kind, interior, node, hinside.elements (depth + 1)]
  · intro i hi
    rcases List.mem_cons.mp hi with rfl | hi
    · exact (hinside.covered_interior node rfl).of_leads hin
    · exact (hinside.covered i hi).of_leads hin
  · intro i hi
    rcases List.mem_cons.mp hi with rfl | hi
    · exact betweenTags h hnext hclose
        (tag.close_cases (StartTag.isTagName_name h) inside.next)
    · exact (hinside.betweenTags i hi).of_leads hin
  · have hnone : [Tile.node node].filterMap Tile.stray? = [] := rfl
    simpa [filter_problems h, filter_close, hnone, interior]
      using hinside.strays

end StartTag

theorem Reads.layout {o : ReadOptions} (hpreserve : o.whitespace = .preserve)
    {mode : TextMode} {opened : List String} {c : Cursor} {r : Siblings}
    (h : Reads o mode opened c r) :
    ∃ tiles sections inner, Layout c r tiles sections inner := by
  induction h with
  | ends => exact ⟨[], [], [], Layout.ends _⟩
  | leaf hgoes hleaf _ ih =>
      obtain ⟨_, _, hfirst⟩ :=
        hleaf.layout hpreserve (ne_nil_of_endsContent hgoes)
      obtain ⟨_, _, _, hlater⟩ := ih
      exact ⟨_, _, _, hfirst.followedBy hlater hleaf.leads⟩
  | alone _ htag _ _ ih =>
      obtain ⟨_, _, hfirst⟩ := StartTag.layout_alone htag [] rfl
      obtain ⟨_, _, _, hlater⟩ := ih
      exact ⟨_, _, _, hfirst.followedBy hlater (StartTag.read?_leads htag)⟩
  | @tooDeep _ _ tag _ _ htag _ _ _ ih =>
      obtain ⟨_, _, hfirst⟩ := StartTag.layout_alone htag
        [.nestingTooDeep tag.name o.maxDepth tag.span] rfl
      obtain ⟨_, _, _, hlater⟩ := ih
      exact ⟨_, _, _, hfirst.followedBy hlater (StartTag.read?_leads htag)⟩
  | @element _ c tag inside _ _ htag _ _ hinside _ ihinside ih =>
      obtain ⟨_, _, _, hcontent⟩ := ihinside
      obtain ⟨_, _, hfirst⟩ :=
        StartTag.layout_around htag hinside.leads hcontent
      obtain ⟨_, _, _, hlater⟩ := ih
      exact ⟨_, _, _, hfirst.followedBy hlater
        ((StartTag.read?_leads htag).trans
          (hinside.leads.trans (tag.close_leads inside.next)))⟩

/-- Nothing of the source is lost when white space is kept.  Between its tags
an element holds its children, one behind the other, and the bytes around them
are those of the end tags that were reported as closing nothing and of the
markers of CDATA sections; so does the whole source for the root. -/
theorem Template.read_covers (limit : Nat) (source : String) :
    let t := Template.read ⟨.preserve, limit⟩ source
    let whole : Span := ⟨0, source.utf8ByteSize⟩
    let begins := Cursor.start source.toList
    t.root.span = whole ∧
      (∃ (top : Interior) (inner : List Interior), top.node = t.root ∧
        top.span = whole ∧
        inner.map Interior.node = Node.elements (t.root.preorder 0) ∧
        (∀ i ∈ top :: inner, i.Covered begins) ∧
        (∀ i ∈ inner, i.BetweenTags begins) ∧
        ((top :: inner).flatMap Interior.strays).Perm
          (t.diagnostics.filter Diagnostic.isUnmatched)) ∧
      (∀ p ∈ t.root.preorder 0, p.2.span.FitsIn source ∧
        ∀ a ∈ p.2.attributes, a.span.FitsIn source) ∧
      ∀ d ∈ t.diagnostics, d.span.FitsIn source := by
  intro t whole begins
  have hreads := siblings_reads ⟨.preserve, limit⟩ .data [] begins
  obtain ⟨hroot, hdiagnostics⟩ := Template.read_of_reads hreads
  obtain ⟨tiles, sections, inner, hlayout⟩ := hreads.layout rfl
  have hnext := hreads.next_eq_toEnd
  generalize siblings ⟨.preserve, limit⟩ .data [] begins = r at *
  have hwhole : begins.spanTo r.next = whole := by
    simp [hnext, begins, whole, Cursor.spanTo, Cursor.start, Cursor.toEnd,
      byteLength_toList]
  rw [byteLength_toList] at hroot
  let top : Interior := ⟨t.root, whole, tiles.filterMap Tile.stray?, sections⟩
  have htop : top.Covered begins := by
    have hcovered :=
      hlayout.covered_interior t.root (by rw [show t.root = _ from hroot]; rfl)
    rwa [hwhole] at hcovered
  refine ⟨by rw [show t.root = _ from hroot]; rfl,
    ⟨top, inner, rfl, rfl, ?_, ?_, ?_, ?_⟩, Template.read_fitsIn _ source⟩
  · rw [show t.root = _ from hroot, hlayout.elements 1]
    rfl
  · intro i hi
    rcases List.mem_cons.mp hi with rfl | hi
    · exact htop
    · exact hlayout.covered i hi
  · exact hlayout.betweenTags
  · rw [show t.diagnostics = _ from hdiagnostics]
    exact hlayout.strays

end MarkupTemplate
