/-
Reading goes forward and comes to an end.  Every round of reading siblings takes
something off the front, and it comes back with the elements open that were open
before; so does the reading of all siblings.  What is made on the way is paid
for with bytes of the source.
-/
import MarkupTemplate.Proofs.Placement
import MarkupTemplate.Proofs.Reader

namespace MarkupTemplate

namespace Reader

variable {o : ReadOptions} {s t : Reader}

/-- What one round of reading makes of what begins here. -/
def item (o : ReadOptions) (s : Reader) : Siblings :=
  (Piece.read o s.mode s.here).complete o s.opened s.here (siblings o)

/-- What one round of reading makes of what begins at a place in a CDATA
section. -/
def cdataItem (o : ReadOptions) (s : Reader) (c : Cursor) : Siblings :=
  (Piece.read o .cdata c).complete o s.opened c (siblings o)

/-- What is read from here on until the content of the innermost open element
ends. -/
def content (o : ReadOptions) (s : Reader) : Siblings :=
  siblings o s.mode s.opened s.here

theorem inside_item (hgoes : endsContent s.opened s.here.rest = false) :
    Inside o s.frames s (s.take (s.item o)) := by
  rw [item]
  cases hpiece : Piece.read o s.mode s.here with
  | whole item =>
      exact .of_step hgoes
        (step_of_leaf hgoes (Piece.read_eq_whole s.mode_ne_cdata hpiece))
  | cdata inside =>
      obtain ⟨hmode, hopening, rfl⟩ := Piece.read_eq_cdata hpiece
      rw [Piece.complete_cdata]
      exact .of_step hgoes (step_of_leaf hgoes (.cdata hmode hopening))
  | start tag =>
      obtain ⟨hmode, htag⟩ := Piece.read_eq_start hpiece
      simp only [Piece.complete]
      split
      · next hending =>
          exact .of_step hgoes (step_of_alone hgoes hmode htag hending)
      · next hending =>
          rw [not_not] at hending
          rw [opened, List.length_map]
          split
          · next hdeep =>
              exact .of_step hgoes
                (step_of_tooDeep hgoes hmode htag hending hdeep)
          · next hroom =>
              have hreads := siblings_reads o (TextMode.ofTag tag.name)
                (tag.name :: s.opened) tag.next (TextMode.ofTag_ne_cdata _)
              exact inside_around hgoes
                (step_of_enter hgoes hmode htag hending
                  (Nat.lt_of_not_le hroom))
                (hreads.inside (s.enter tag) rfl rfl rfl)
                hreads.endsContent_next

theorem item_length_lt (hgoes : endsContent s.opened s.here.rest = false) :
    (s.item o).next.rest.length < s.here.rest.length :=
  Piece.complete_length_lt
    (Piece.read_length_lt o s.mode (ne_nil_of_endsContent hgoes))
    (siblings_length_le o)

theorem cdataItem_length_lt {c : Cursor}
    (hgoes : endsSiblings .cdata s.opened c.rest = false) :
    (s.cdataItem o c).next.rest.length < c.rest.length :=
  Piece.complete_length_lt
    (Piece.read_length_lt_of_not_endsSiblings o (Bool.eq_false_iff.mp hgoes))
    (siblings_length_le o)

theorem cdataItem_leads (s : Reader) (c : Cursor) :
    c.Leads (s.cdataItem o c).next := by
  rw [cdataItem, Piece.read_cdata]
  exact Siblings.text_leads o .cdata c

namespace Step

theorem leads (h : s.Step o t) : s.here.Leads t.here := by
  cases h with
  | leave => exact StartTag.close_leads _ _
  | leaf _ hleaf => exact hleaf.leads
  | alone htag => exact StartTag.read?_leads htag
  | enter htag => exact StartTag.read?_leads htag

end Step

theorem Reaches.leads (h : s.Reaches o t) : s.here.Leads t.here :=
  h.invariant (P := fun u => s.here.Leads u.here)
    (fun _ _ hu hstep => hu.trans (step_cases hstep).leads)
    (Cursor.Leads.refl _)

/-- An upper bound of the number of steps that are left: what is ahead can be
taken and elements can be opened for it, and open elements are to be left. -/
def bound (s : Reader) : Nat := 2 * s.here.rest.length + s.frames.length

theorem Step.bound_lt (h : s.Step o t) : t.bound < s.bound := by
  cases h with
  | @leave f outer _ hframes =>
      have hclose := f.tag.close_length_le s.here
      simp only [bound, Reader.leave, hframes, List.length_cons]
      omega
  | @leaf item hgoes hleaf =>
      have hread := hleaf.length_lt (ne_nil_of_endsContent hgoes)
      simp only [bound, take]
      omega
  | @alone tag problems htag =>
      have hread := StartTag.read?_length_lt htag
      simp only [bound, take, StartTag.alone]
      omega
  | enter htag =>
      have hread := StartTag.read?_length_lt htag
      simp only [bound, Reader.enter, List.length_cons]
      omega

theorem steps_bound {n : Nat} (h : s.steps o n = some t) :
    n + t.bound ≤ s.bound := by
  induction n generalizing s with
  | zero =>
      rw [← Option.some.inj h]
      omega
  | succ n ih =>
      obtain ⟨u, hu, hrest⟩ := Option.bind_eq_some_iff.mp h
      have hlater := ih hrest
      have hfirst := (step_cases hu).bound_lt
      omega

/-- The machine stops outside all elements and with nothing ahead. -/
theorem step_eq_none (h : s.step o = none) :
    s.frames = [] ∧ s.here.rest = [] := by
  unfold step at h
  split at h
  · next hend =>
      cases hframes : s.frames with
      | nil => exact ⟨rfl, by simpa [opened, hframes, endsContent] using hend⟩
      | cons f outer => simp [hframes] at h
  · split at h
    · contradiction
    · contradiction
    · split at h
      · contradiction
      · split at h <;> contradiction

end Reader

/-- The number of nodes and of end tags that close nothing. -/
def Siblings.weight (depth : Nat) (r : Siblings) : Nat :=
  (Node.preorders depth r.nodes).length +
    (r.diagnostics.filter Diagnostic.isUnmatched).length

theorem Siblings.weight_followedBy (depth : Nat) (first later : Siblings) :
    (first.followedBy later).weight depth =
      first.weight depth + later.weight depth := by
  simp only [weight, nodes_followedBy, diagnostics_followedBy,
    Node.preorders_append, List.filter_append, List.length_append]
  omega

/-- A leaf is one node, nothing at all, or an end tag that closes nothing. -/
theorem Leaf.weight_le_one {o : ReadOptions} {mode : TextMode} {c : Cursor}
    {item : Siblings} (h : Leaf o mode c item) (depth : Nat) :
    item.weight depth ≤ 1 := by
  rw [Siblings.weight, Node.preorders_leaves h.isLeaf_nodes, List.length_map]
  cases h with
  | comment =>
      simp only [Siblings.comment, Siblings.diagnostics]
      split <;> simp [Diagnostic.isUnmatched]
  | cdata =>
      simp only [Siblings.cdata, Siblings.diagnostics]
      split <;> split <;> simp [Diagnostic.isUnmatched]
  | unmatched => exact Nat.le_refl 1
  | interpolation =>
      simp only [Siblings.interpolation, Siblings.diagnostics]
      split <;> simp [Diagnostic.isUnmatched]
  | text =>
      simp only [Siblings.text, Siblings.diagnostics, List.length_map]
      split
      · cases condense (Siblings.textRun mode c.rest) <;> simp
      · simp

theorem Leaf.offset_lt {o : ReadOptions} {mode : TextMode}
    {opened : List String} {c : Cursor} {item : Siblings}
    (h : Leaf o mode c item) (hgoes : endsContent opened c.rest = false) :
    c.offset < item.next.offset :=
  h.leads.offset_lt (h.length_lt (ne_nil_of_endsContent hgoes))

namespace StartTag

variable {c : Cursor} {tag : StartTag}

theorem read?_offset_lt (h : StartTag.read? c = some tag) :
    c.offset < tag.next.offset :=
  (read?_leads h).offset_lt (read?_length_lt h)

theorem weight_alone (h : StartTag.read? c = some tag)
    {problems : List Diagnostic}
    (hproblems : problems.filter Diagnostic.isUnmatched = []) (depth : Nat) :
    (tag.alone c problems).weight depth = 1 := by
  have hnodes := tag.preorders_element [] [] tag.span depth
  rw [Siblings.weight, diagnostics_alone, List.filter_append,
    filter_problems h, hproblems, show (tag.alone c problems).nodes =
      [tag.element [] tag.span] ++ [] from rfl, hnodes]
  rfl

theorem weight_around (h : StartTag.read? c = some tag) (inside : Siblings)
    (depth : Nat) :
    (tag.around c inside).weight depth = inside.weight (depth + 1) + 1 := by
  have hnodes (span : Span) := tag.preorders_element inside.nodes [] span depth
  rw [Siblings.weight, Siblings.weight, diagnostics_around, List.filter_append,
    List.filter_append, filter_problems h, filter_close,
    show (tag.around c inside).nodes =
        [tag.element inside.nodes _] ++ [] from rfl, hnodes]
  simp only [Node.preorders, List.append_nil, List.nil_append, List.length_cons]
  omega

end StartTag

/-- Every node and every end tag that closes nothing takes up a byte of its
own. -/
theorem Reads.weight_le {o : ReadOptions} {mode : TextMode}
    {opened : List String} {c : Cursor} {r : Siblings}
    (h : Reads o mode opened c r) (depth : Nat) :
    r.weight depth + c.offset ≤ r.next.offset := by
  induction h generalizing depth with
  | ends => simp [Siblings.weight, Node.preorders, Siblings.diagnostics]
  | leaf hgoes hleaf _ ih =>
      have hone := hleaf.weight_le_one depth
      have hbyte := hleaf.offset_lt hgoes
      have hlater := ih depth
      rw [Siblings.weight_followedBy, Siblings.next_followedBy]
      omega
  | alone _ htag _ _ ih =>
      have hbyte := StartTag.read?_offset_lt htag
      have hlater := ih depth
      rw [Siblings.weight_followedBy, Siblings.next_followedBy,
        StartTag.weight_alone htag List.filter_nil]
      omega
  | tooDeep _ htag _ _ _ ih =>
      have hbyte := StartTag.read?_offset_lt htag
      have hlater := ih depth
      rw [Siblings.weight_followedBy, Siblings.next_followedBy,
        StartTag.weight_alone htag (by simp [Diagnostic.isUnmatched])]
      omega
  | @element _ _ tag inside _ _ htag _ _ _ _ ihinside ih =>
      have hbyte := StartTag.read?_offset_lt htag
      have hcontent := ihinside (depth + 1)
      have hclose := (tag.close_leads inside.next).offset_le
      have hlater := ih depth
      rw [Siblings.weight_followedBy, Siblings.next_followedBy,
        StartTag.weight_around htag]
      omega

/-- A run that comes back: nothing that was open is left on the way, in the end
exactly the same elements are open, in the same text mode, and nothing that was
noted is lost. -/
structure Reader.ComesBack (o : ReadOptions) (s t : Reader) : Prop where
  inside : Inside o s.frames s t
  frames : t.frames = s.frames
  mode : t.mode = s.mode
  notes : s.notes <+: t.notes

theorem Reader.Inside.comesBack {o : ReadOptions} {s : Reader} {r : Siblings}
    (h : Inside o s.frames s (s.take r)) : s.ComesBack o (s.take r) :=
  ⟨h, rfl, rfl, List.prefix_append _ _⟩

/-- Where reading stands, the characters ahead are those of the source behind
the offset. -/
theorem Cursor.Leads.exists_front {source : String} {c : Cursor}
    (h : (Cursor.start source.toList).Leads c) :
    ∃ front : String, source = front ++ String.ofList c.rest ∧
      front.utf8ByteSize = c.offset := by
  obtain ⟨taken, hrest, hoffset⟩ := h
  refine ⟨String.ofList taken, ?_, ?_⟩
  · rw [← String.ofList_append, ← hrest]
    simp [Cursor.start]
  · rw [hoffset, ← byteLength_toList, String.toList_ofList]
    simp [Cursor.start]

theorem Cursor.Leads.offset_le_size {source : String} {c : Cursor}
    (h : (Cursor.start source.toList).Leads c) :
    c.offset ≤ source.utf8ByteSize := by
  obtain ⟨front, rfl, hoffset⟩ := h.exists_front
  rw [String.utf8ByteSize_append]
  omega

/-- Reading takes everything and ends.  Wherever it stands, its offset is a
place between two characters of the source and what is ahead is the source from
there on.  Each round moves on by a byte or more and stays within the source, in
CDATA sections too, and comes back with the same elements open, as does the
reading of all the content of an element.  It stops at the end of the source and
there alone, after at most two steps for each character, and each of its nodes
and of the end tags that close nothing takes up a byte. -/
theorem Reader.reads_through (o : ReadOptions) (source : String) :
    let begins := Reader.start source
    let t := Template.read o source
    let size := source.utf8ByteSize
    (∀ s, begins.Reaches o s →
      (⟨s.here.offset⟩ : String.Pos.Raw).IsValid source ∧
      (∃ front : String, source = front ++ String.ofList s.here.rest ∧
        front.utf8ByteSize = s.here.offset) ∧
      (endsContent s.opened s.here.rest = false →
        s.here.offset < (s.item o).next.offset ∧ (s.item o).next.offset ≤ size ∧
          s.ComesBack o (s.take (s.item o))) ∧
      (∀ c, s.here.Leads c → endsSiblings .cdata s.opened c.rest = false →
        c.offset < (s.cdataItem o c).next.offset ∧
          (s.cdataItem o c).next.offset ≤ size) ∧
      s.ComesBack o (s.take (s.content o)) ∧
      endsContent s.opened (s.content o).next.rest = true ∧
      (s.step o = none → s.frames = [] ∧ s.here.offset = size)) ∧
    (∃ n last, n ≤ 2 * source.length ∧ begins.steps o n = some last ∧
      last.step o = none ∧
      last.nodes = t.root.children ∧ last.notes = t.notes) ∧
    (∀ p ∈ t.root.preorder 0, p.2.span.FitsIn source ∧
      ∀ a ∈ p.2.attributes, a.span.FitsIn source) ∧
    (∀ d ∈ t.diagnostics, d.span.FitsIn source) ∧
    (t.root.preorder 0).countP (·.2.kind != .root) +
      (t.diagnostics.filter Diagnostic.isUnmatched).length ≤ size := by
  intro begins t size
  obtain ⟨hspans, hproblems⟩ := Template.read_fitsIn o source
  refine ⟨fun s hs => ?_, ?_, hspans, hproblems, ?_⟩
  · have hhere : (Cursor.start source.toList).Leads s.here := hs.leads
    have hreads := siblings_reads o s.mode s.opened s.here s.mode_ne_cdata
    refine ⟨hhere.isValid, hhere.exists_front, fun hgoes => ?_,
      fun c hc hgoes => ?_, ?_, ?_, fun hlast => ?_⟩
    · have hitem := Reader.inside_item (o := o) hgoes
      have hleads : s.here.Leads (s.item o).next := hitem.reaches.leads
      exact ⟨hleads.offset_lt (Reader.item_length_lt hgoes),
        (hhere.trans hleads).offset_le_size, hitem.comesBack⟩
    · have hleads := s.cdataItem_leads (o := o) c
      exact ⟨hleads.offset_lt (Reader.cdataItem_length_lt hgoes),
        (hhere.trans (hc.trans hleads)).offset_le_size⟩
    · exact (hreads.inside s rfl rfl rfl).comesBack
    · exact hreads.endsContent_next
    · obtain ⟨hframes, hrest⟩ := Reader.step_eq_none hlast
      refine ⟨hframes, ?_⟩
      rw [hhere.eq_toEnd hrest]
      simp [Cursor.start, Cursor.toEnd, byteLength_toList, size]
  · obtain ⟨last, ⟨n, hn⟩, hlast, hmade⟩ := Reader.reaches_last o source
    have hbound := Reader.steps_bound hn
    refine ⟨n, last, ?_, hn, hlast, hmade⟩
    simp only [Reader.bound, Reader.start, Cursor.start, String.length_toList,
      List.length_nil] at hbound
    omega
  · obtain ⟨r, hreads⟩ : ∃ r, Reads o .data [] (Cursor.start source.toList) r :=
      ⟨_, siblings_reads o .data [] _⟩
    obtain ⟨hroot, hdiagnostics⟩ := Template.read_of_reads hreads
    have hcount : (Node.preorders 1 r.nodes).countP (·.2.kind != .root) ≤
        (Node.preorders 1 r.nodes).length := List.countP_le_length
    have hweight := hreads.weight_le 1
    have hsize := hreads.leads.offset_le_size
    rw [show t.root = _ from hroot, show t.diagnostics = _ from hdiagnostics,
      Node.preorder, List.countP_cons_of_neg (by simp [Node.kind]),
      Nat.zero_add]
    rw [Siblings.weight] at hweight
    omega

/-- Inside `p` the next round reads an element that is never closed, from the
fifth byte on behind a character of two bytes. -/
theorem Reader.reads_through_umlaut :
    let o : ReadOptions := ⟨.condense, 2⟩
    ∃ s, (Reader.start "<p>ü<b></i></p>").Reaches o s ∧ s.opened = ["p"] ∧
      s.here.offset = 5 ∧
      endsContent s.opened s.here.rest = false ∧ 5 < (s.item o).next.offset ∧
      (s.item o).next.offset ≤ 16 ∧ (s.take (s.item o)).opened = ["p"] ∧
      s.notes <+: (s.take (s.item o)).notes := by
  intro o
  have heval : ((Reader.start "<p>ü<b></i></p>").steps o 2).map
      (fun s => (s.opened, s.here.offset, endsContent s.opened s.here.rest)) =
      some (["p"], 5, false) := by decide +kernel
  obtain ⟨s, hsteps, hs⟩ := Option.map_eq_some_iff.mp heval
  simp only [Prod.mk.injEq] at hs
  obtain ⟨hopened, hoffset, hgoes⟩ := hs
  have hstate := (Reader.reads_through o "<p>ü<b></i></p>").1 s ⟨2, hsteps⟩
  obtain ⟨hmoves, hfits, hback⟩ := hstate.2.2.1 hgoes
  refine ⟨s, ⟨2, hsteps⟩, hopened, hoffset, hgoes, ?_, hfits, ?_, hback.notes⟩
  · rwa [hoffset] at hmoves
  · rw [Reader.opened, hback.frames]
    exact hopened

end MarkupTemplate
