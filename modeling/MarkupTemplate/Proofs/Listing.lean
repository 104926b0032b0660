/-
The nodes that the reader has made so far.  They are listed in the order of the
source, those in front of the open elements included.  A step adds nodes that
begin where the reader stands, or the element that it leaves, so what begins in
a stretch of the source is settled once the reader is behind it.
-/
import MarkupTemplate.Proofs.Coverage
import MarkupTemplate.Proofs.Progress

namespace MarkupTemplate

theorem Leaf.offset_le_start {o : ReadOptions} {mode : TextMode} {c : Cursor}
    {item : Siblings} (h : Leaf o mode c item) :
    ∀ n ∈ item.nodes, c.offset ≤ n.span.start := by
  intro n hn
  obtain ⟨d, e, hd, _, hspan⟩ := h.passes_nodes n hn
  rw [hspan]
  exact hd.offset_le

theorem Leaf.start_lt_next {o : ReadOptions} {mode : TextMode}
    {opened : List String} {c : Cursor} {item : Siblings}
    (h : Leaf o mode c item) (hgoes : endsContent opened c.rest = false) :
    ∀ n ∈ item.nodes, n.span.start < item.next.offset := by
  intro n hn
  have hlt := h.offset_lt hgoes
  cases h with
  | comment =>
      rw [List.mem_singleton.mp hn]
      exact hlt
  | cdata =>
      obtain ⟨tiles, hlaid, hnodes, _⟩ := Siblings.exists_laid_cdata c
      rw [← hnodes] at hn
      obtain ⟨tile, htile, hnode⟩ := List.mem_filterMap.mp hn
      obtain ⟨_, hstart, hstop⟩ := hlaid.inside tile htile
      rw [Tile.node?_eq_some.mp hnode] at hstart hstop
      exact Nat.lt_of_lt_of_le hstart hstop
  | unmatched => simp [Siblings.unmatched] at hn
  | interpolation =>
      rw [List.mem_singleton.mp hn]
      exact hlt
  | text =>
      obtain ⟨content, _, rfl⟩ := List.mem_map.mp hn
      exact hlt

theorem StartTag.nodes_element (tag : StartTag) (children : List Node)
    (span : Span) :
    (tag.element children span).nodes =
      tag.element children span :: children.flatMap Node.nodes :=
  Node.nodes_eq _

theorem StartTag.start_element {c : Cursor} {tag : StartTag}
    (h : StartTag.read? c = some tag) (children : List Node) :
    (tag.element children tag.span).span.start = c.offset :=
  congrArg Span.start (StartTag.span_eq h)

namespace Reader

variable {o : ReadOptions} {source : String} {s t u : Reader}

/-- The nodes made so far, in the order of the source. -/
def listing (s : Reader) : List Node :=
  s.frames.reverse.flatMap (fun f => f.before.flatMap Node.nodes) ++
    s.nodes.flatMap Node.nodes

theorem listing_take (s : Reader) (item : Siblings) :
    (s.take item).listing = s.listing ++ item.nodes.flatMap Node.nodes := by
  simp [listing, take]

theorem listing_take_leaf {item : Siblings} (h : Leaf o s.mode s.here item) :
    (s.take item).listing = s.listing ++ item.nodes := by
  rw [listing_take, Node.flatMap_nodes_leaves h.isLeaf_nodes]

theorem listing_take_alone (s : Reader) (tag : StartTag)
    (problems : List Diagnostic) :
    (s.take (tag.alone s.here problems)).listing =
      s.listing ++ [tag.element [] tag.span] := by
  simp [listing_take, StartTag.alone, StartTag.nodes_element]

theorem listing_enter (s : Reader) (tag : StartTag) :
    (s.enter tag).listing = s.listing := by
  simp [listing, enter]

/-- An element that is left stands in front of what was made in it. -/
theorem listing_leave {f : Frame} {outer : List Frame}
    (hframes : s.frames = f :: outer) :
    ∃ before after element, s.listing = before ++ after ∧
      (s.leave f outer).listing = before ++ element :: after ∧
      element.kind = .element ∧ element.span.start = f.start.offset := by
  refine ⟨outer.reverse.flatMap (fun f => f.before.flatMap Node.nodes) ++
    f.before.flatMap Node.nodes, s.nodes.flatMap Node.nodes,
    f.tag.element s.nodes (f.start.spanTo (f.tag.close s.here).2),
    ?_, ?_, rfl, rfl⟩
  · simp [listing, hframes]
  · simp [listing, leave, StartTag.nodes_element]

/-- Everything made so far, and every open element, begins behind the reader. -/
structure Behind (s : Reader) : Prop where
  nodes : ∀ n ∈ s.listing, n.span.start < s.here.offset
  frames : ∀ f ∈ s.frames, f.start.offset < s.here.offset

theorem Step.behind (h : s.Step o t) (hs : s.Behind) : t.Behind := by
  have hnodes : ∀ n ∈ s.listing, n.span.start < t.here.offset :=
    fun n hn => Nat.lt_of_lt_of_le (hs.nodes n hn) h.leads.offset_le
  have hframes : ∀ f ∈ s.frames, f.start.offset < t.here.offset :=
    fun f hf => Nat.lt_of_lt_of_le (hs.frames f hf) h.leads.offset_le
  cases h with
  | @leave f outer _ hopen =>
      obtain ⟨before, after, element, hlisting, hleft, _, hstart⟩ :=
        listing_leave hopen
      rw [hopen, List.forall_mem_cons] at hframes
      rw [hlisting, List.forall_mem_append] at hnodes
      refine ⟨?_, hframes.2⟩
      rw [hleft, List.forall_mem_append, List.forall_mem_cons]
      exact ⟨hnodes.1, hstart ▸ hframes.1, hnodes.2⟩
  | leaf hgoes hleaf =>
      refine ⟨?_, hframes⟩
      rw [listing_take_leaf hleaf]
      exact List.forall_mem_append.mpr ⟨hnodes, hleaf.start_lt_next hgoes⟩
  | @alone tag problems htag =>
      refine ⟨?_, hframes⟩
      rw [listing_take_alone, List.forall_mem_append, List.forall_mem_singleton]
      refine ⟨hnodes, ?_⟩
      rw [StartTag.start_element htag]
      exact StartTag.read?_offset_lt htag
  | enter htag =>
      refine ⟨?_,
        List.forall_mem_cons.mpr ⟨StartTag.read?_offset_lt htag, hframes⟩⟩
      rw [listing_enter]
      exact hnodes

theorem Reaches.behind (h : (start source).Reaches o s) : s.Behind :=
  h.invariant (fun _ _ hu hstep => (step_cases hstep).behind hu)
    ⟨by simp [start, listing], by simp [start]⟩

section

variable {span : Span}

/-- Nothing more comes to begin in a stretch that is behind the reader, unless
an element that is open begins there. -/
theorem Step.filter_listing (h : s.Step o t)
    (hbehind : span.stop ≤ s.here.offset)
    (hframes : ∀ f ∈ s.frames, ¬ span.Holds f.start.offset) :
    t.listing.filter (fun n => span.Holds n.span.start) =
        s.listing.filter (fun n => span.Holds n.span.start) ∧
      ∀ f ∈ t.frames, ¬ span.Holds f.start.offset := by
  have hbeyond : ∀ offset, s.here.offset ≤ offset → ¬ span.Holds offset := by
    rintro offset hoffset ⟨_, hstop⟩
    omega
  cases h with
  | @leave f outer _ hopen =>
      obtain ⟨before, after, element, hlisting, hleft, _, hstart⟩ :=
        listing_leave hopen
      rw [hopen, List.forall_mem_cons] at hframes
      refine ⟨?_, hframes.2⟩
      rw [hleft, hlisting, List.filter_append, List.filter_append,
        List.filter_cons_of_neg]
      simpa [hstart] using hframes.1
  | leaf _ hleaf =>
      refine ⟨?_, hframes⟩
      rw [listing_take_leaf hleaf, List.filter_append,
        List.append_right_eq_self]
      simpa using fun n hn => hbeyond _ (hleaf.offset_le_start n hn)
  | @alone tag problems htag =>
      refine ⟨?_, hframes⟩
      rw [listing_take_alone, List.filter_append, List.append_right_eq_self]
      simpa [StartTag.start_element htag] using hbeyond _ (Nat.le_refl _)
  | enter =>
      rw [listing_enter]
      exact ⟨rfl, List.forall_mem_cons.mpr ⟨hbeyond _ (Nat.le_refl _), hframes⟩⟩

theorem Reaches.filter_listing (h : s.Reaches o t)
    (hbehind : span.stop ≤ s.here.offset)
    (hframes : ∀ f ∈ s.frames, ¬ span.Holds f.start.offset) :
    t.listing.filter (fun n => span.Holds n.span.start) =
      s.listing.filter (fun n => span.Holds n.span.start) := by
  have hrun := h.invariant
    (P := fun u => span.stop ≤ u.here.offset ∧
      (∀ f ∈ u.frames, ¬ span.Holds f.start.offset) ∧
      u.listing.filter (fun n => span.Holds n.span.start) =
        s.listing.filter (fun n => span.Holds n.span.start))
    (fun u v hu hstep => ?_) ⟨hbehind, hframes, rfl⟩
  · exact hrun.2.2
  · obtain ⟨hbehind, hframes, hlisting⟩ := hu
    have hcases := step_cases hstep
    obtain ⟨hsame, hlater⟩ := hcases.filter_listing hbehind hframes
    exact ⟨Nat.le_trans hbehind hcases.leads.offset_le, hlater,
      hsame.trans hlisting⟩

end

/-- What begins in the stretch of a leaf are in the end the nodes of the
leaf. -/
theorem Reaches.filter_listing_leaf {item : Siblings}
    (h : (start source).Reaches o s)
    (hgoes : endsContent s.opened s.here.rest = false)
    (hleaf : Leaf o s.mode s.here item) (ht : (s.take item).Reaches o t) :
    t.listing.filter (fun n => (s.here.spanTo item.next).Holds n.span.start) =
      item.nodes := by
  have hbehind := h.behind
  have hearlier : ∀ offset, offset < s.here.offset →
      ¬ (s.here.spanTo item.next).Holds offset := by
    rintro offset hoffset ⟨hstart, _⟩
    exact absurd hstart (Nat.not_le.mpr hoffset)
  rw [ht.filter_listing (Nat.le_refl _) fun f hf =>
    hearlier _ (hbehind.frames f hf), listing_take_leaf hleaf,
      List.filter_append]
  have hnone : s.listing.filter
      (fun n => (s.here.spanTo item.next).Holds n.span.start) = [] := by
    simpa using fun n hn => hearlier _ (hbehind.nodes n hn)
  have hall : item.nodes.filter
      (fun n => (s.here.spanTo item.next).Holds n.span.start) =
      item.nodes := List.filter_eq_self.mpr fun n hn =>
    decide_eq_true ⟨hleaf.offset_le_start n hn, hleaf.start_lt_next hgoes n hn⟩
  rw [hnone, hall, List.nil_append]

end Reader

end MarkupTemplate
