/-
Raw text.  The content of an element such as `script` is taken as it stands, up
to the first place where its own end tag or that of an element around it
begins.  Reading asks for an end tag only between two texts, and a text is
taken up to the next bracket, so no end tag lies inside a text.
-/
import MarkupTemplate.Proofs.Closing
import MarkupTemplate.Proofs.Proper

namespace MarkupTemplate

/-- The end tag of one of these elements begins here: the name in any letter
case, and behind it a blank, `/`, `>` or the end of the source. -/
def BeginsEndTag (names : List String) (cs : List Char) : Prop :=
  ∃ name ∈ names, ∃ spelled rest, cs = '<' :: '/' :: (spelled ++ rest) ∧
    spelled.map Char.toLower = foldCase name ∧ endsName rest = true

/-- The part of a text in front of the first end tag of one of these elements,
or all of it if there is none. -/
def UpToEndTag (names : List String) (text content : List Char) : Prop :=
  ∃ behind, text = content ++ behind ∧
    (behind = [] ∨ BeginsEndTag names behind) ∧
    ∀ part, part <:+ content → part ≠ [] → ¬ BeginsEndTag names (part ++ behind)

theorem endsContent_iff {opened : List String} {rest : List Char} :
    endsContent opened rest = true ↔ rest = [] ∨ BeginsEndTag opened rest := by
  simp only [endsContent, Bool.or_eq_true, List.isEmpty_iff, List.any_eq_true,
    opensEndTag_iff, BeginsEndTag]

theorem not_beginsEndTag_of_not_bracket {names : List String} {cs : List Char}
    (h : ¬ ['<'] <+: cs) : ¬ BeginsEndTag names cs := by
  rintro ⟨_, _, spelled, rest, rfl, _⟩
  exact h ⟨_, rfl⟩

namespace UpToEndTag

variable {names : List String} {run text content : List Char}

theorem nil (h : text = [] ∨ BeginsEndTag names text) :
    UpToEndTag names text [] :=
  ⟨text, rfl, h, by simp⟩

/-- A run in which no end tag begins goes in front. -/
theorem append_run (h : UpToEndTag names text content)
    (hrun : ∀ part, part <:+ run → part ≠ [] →
      ¬ BeginsEndTag names (part ++ text)) :
    UpToEndTag names (run ++ text) (run ++ content) := by
  obtain ⟨behind, rfl, hends, hparts⟩ := h
  refine ⟨behind, by simp, hends, fun part hpart hne => ?_⟩
  rcases List.suffix_or_suffix_of_suffix hpart
    (List.suffix_append run content) with
    hlater | ⟨before, rfl⟩
  · exact hparts part hlater hne
  · have hbefore : before <:+ run := by
      obtain ⟨front, hfront⟩ := hpart
      rw [← List.append_assoc] at hfront
      exact ⟨front, List.append_cancel_right hfront⟩
    cases before with
    | nil => exact hparts _ (List.suffix_refl _) hne
    | cons x before =>
        rw [List.append_assoc]
        exact hrun (x :: before) hbefore (by simp)

end UpToEndTag

/-- No end tag begins in a text of raw text, unless it begins where the text
does. -/
theorem Siblings.not_beginsEndTag_in_textRun {opened : List String} {c : Cursor}
    (hgoes : endsContent opened c.rest = false) {part : List Char}
    (hpart : part <:+ Siblings.textRun .rawtext c.rest) (hne : part ≠ []) :
    ¬ BeginsEndTag opened
      (part ++ c.rest.drop (Siblings.textRun .rawtext c.rest).length) := by
  have hstart : ¬ BeginsEndTag opened c.rest := fun hbegins => by
    rw [endsContent_iff.mpr (Or.inr hbegins)] at hgoes
    contradiction
  cases hrest : c.rest with
  | nil => exact absurd hrest (ne_nil_of_endsContent hgoes)
  | cons x more =>
      rw [hrest] at hpart hstart
      rcases List.suffix_cons_iff.mp hpart with rfl | hpart
      · have hwhole : x :: takeUntil (Siblings.endsText .rawtext) more ++
            (x :: more).drop (Siblings.textRun .rawtext (x :: more)).length =
              x :: more :=
          List.prefix_iff_eq_append.mp
            (Siblings.textRun_isPrefix .rawtext (x :: more))
        rwa [hwhole]
      · -- behind its first character a text holds no bracket
        have hgoes :=
          (takeUntil_spec (Siblings.endsText .rawtext) more).1 part hpart hne
        exact not_beginsEndTag_of_not_bracket
          ((Siblings.endsText_eq_false_iff (by simp)).mp hgoes).1

theorem Leaf.eq_text_of_rawtext {o : ReadOptions} {c : Cursor} {item : Siblings}
    (h : Leaf o .rawtext c item) : item = .text o .rawtext c := by
  cases h with
  | text => rfl
  | interpolation hmode => contradiction
  | _ hmode => contradiction

/-- The characters of what nodes hold themselves. -/
def Node.written (nodes : List Node) : List Char :=
  (String.join (nodes.filterMap Node.label?)).toList

theorem Node.written_append (first later : List Node) :
    Node.written (first ++ later) =
      Node.written first ++ Node.written later := by
  simp [Node.written]

theorem Siblings.written_text (o : ReadOptions) (c : Cursor) :
    Node.written (Siblings.text o .rawtext c).nodes =
      Siblings.textRun .rawtext c.rest := by
  simp [Siblings.text, Node.written, Node.label?]

/-- Raw text is kept up to the first end tag of an open element. -/
theorem Reads.upToEndTag {o : ReadOptions} {mode : TextMode}
    {opened : List String} {c : Cursor} {r : Siblings}
    (h : Reads o mode opened c r) (hmode : mode = .rawtext) :
    UpToEndTag opened c.rest (Node.written r.nodes) := by
  induction h with
  | ends hend => exact .nil (endsContent_iff.mp hend)
  | @leaf _ opened c item later hgoes hleaf _ ih =>
      subst hmode
      obtain rfl := hleaf.eq_text_of_rawtext
      have hwhole : Siblings.textRun .rawtext c.rest ++
          (Siblings.text o .rawtext c).next.rest = c.rest :=
        List.prefix_iff_eq_append.mp (Siblings.textRun_isPrefix .rawtext c.rest)
      have hcontent := (ih rfl).append_run fun part hpart hne =>
        Siblings.not_beginsEndTag_in_textRun hgoes hpart hne
      rw [Siblings.nodes_followedBy, Node.written_append, Siblings.written_text]
      rwa [hwhole] at hcontent
  | alone => contradiction
  | tooDeep => contradiction
  | element => contradiction

namespace Node

mutual

/-- The elements of a tree, each before those below it and with the names of the
elements around it, the innermost first. -/
def nested (around : List String) : Node → List (List String × Node)
  | root children _ _ => nestedAll around children
  | element tag attributes children selfClosing span expr =>
      (around, element tag attributes children selfClosing span expr)
        :: nestedAll (tag :: around) children
  | _ => []

def nestedAll (around : List String) : List Node → List (List String × Node)
  | [] => []
  | node :: nodes => nested around node ++ nestedAll around nodes

end

theorem nestedAll_append (around : List String) (first later : List Node) :
    nestedAll around (first ++ later) =
      nestedAll around first ++ nestedAll around later := by
  induction first with
  | nil => rfl
  | cons node nodes ih => simp [nestedAll, ih]

theorem nestedAll_leaves {nodes : List Node} (h : ∀ node ∈ nodes, node.IsLeaf)
    (around : List String) : nestedAll around nodes = [] := by
  induction nodes with
  | nil => rfl
  | cons node nodes ih =>
      obtain ⟨hnode, hnodes⟩ := List.forall_mem_cons.mp h
      rw [nestedAll, ih hnodes, List.append_nil]
      cases node <;> simp_all [IsLeaf, kind, nested]

/-- An element with the names of the elements around it.  If its start tag ends
with a bracket, its content is raw text and the nesting limit leaves it its
content, then it holds the source from its start tag to the first end tag of its
own or of an element around it. -/
def KeepsRawText (o : ReadOptions) (source : Cursor) (around : List String)
    (e : Node) : Prop :=
  ∃ tag, e.BeginsWith source tag ∧
    (tag.ending = .opened → TextMode.ofTag tag.name = .rawtext →
      around.length < o.maxDepth →
      (∀ child ∈ e.children, child.kind = .text) ∧
      UpToEndTag (tag.name :: around) tag.next.rest (written e.children))

theorem BeginsWith.of_leads {c d : Cursor} {e : Node} {tag : StartTag}
    (h : e.BeginsWith d tag) (hc : c.Leads d) : e.BeginsWith c tag := by
  obtain ⟨b, hb, hread⟩ := h.startTag
  exact ⟨⟨b, hc.trans hb, hread⟩, h.element⟩

theorem KeepsRawText.of_leads {o : ReadOptions} {c d : Cursor}
    {around : List String} {e : Node} (h : e.KeepsRawText o d around)
    (hc : c.Leads d) : e.KeepsRawText o c around := by
  obtain ⟨tag, hbegins, hkeeps⟩ := h
  exact ⟨tag, hbegins.of_leads hc, hkeeps⟩

end Node

section

variable {o : ReadOptions} {opened : List String} {c : Cursor} {tag : StartTag}

theorem StartTag.beginsWith_element {children : List Node} {span : Span}
    (h : StartTag.read? c = some tag) (hspan : span.start = c.offset) :
    (tag.element children span).BeginsWith c tag :=
  ⟨⟨c, .refl c, hspan.symm, h⟩, rfl⟩

theorem StartTag.nestedAll_element (tag : StartTag) (children later : List Node)
    (span : Span) :
    Node.nestedAll opened ([tag.element children span] ++ later) =
      (opened, tag.element children span) ::
        (Node.nestedAll (tag.name :: opened) children ++
          Node.nestedAll opened later) := by
  simp [Node.nestedAll, StartTag.element, Node.nested]

theorem Reads.keepsRawText {mode : TextMode} {r : Siblings}
    (h : Reads o mode opened c r) :
    ∀ p ∈ Node.nestedAll opened r.nodes, p.2.KeepsRawText o c p.1 := by
  -- an element, the elements in it and those behind it
  have hcons : ∀ {opened : List String} {c d : Cursor} {tag : StartTag}
      {children later : List Node} {span : Span}, c.Leads tag.next → c.Leads d →
      (tag.element children span).KeepsRawText o c opened →
      (∀ p ∈ Node.nestedAll (tag.name :: opened) children,
        p.2.KeepsRawText o tag.next p.1) →
      (∀ p ∈ Node.nestedAll opened later, p.2.KeepsRawText o d p.1) →
      ∀ p ∈ Node.nestedAll opened ([tag.element children span] ++ later),
        p.2.KeepsRawText o c p.1 := by
    intro opened c d tag children later span hin hout helement hchildren hlater
    rw [StartTag.nestedAll_element]
    refine List.forall_mem_cons.mpr ⟨helement,
      List.forall_mem_append.mpr ⟨?_, ?_⟩⟩
    · exact fun p hp => (hchildren p hp).of_leads hin
    · exact fun p hp => (hlater p hp).of_leads hout
  induction h with
  | ends => simp [Node.nestedAll]
  | leaf _ hleaf _ ih =>
      rw [Siblings.nodes_followedBy, Node.nestedAll_append,
        Node.nestedAll_leaves hleaf.isLeaf_nodes]
      exact fun p hp => (ih p hp).of_leads hleaf.leads
  | alone _ htag hending _ ih =>
      have hin := StartTag.read?_leads htag
      have hspan := congrArg Span.start (StartTag.span_eq htag)
      refine hcons hin hin ⟨_, StartTag.beginsWith_element htag hspan, ?_⟩
        (by simp [Node.nestedAll]) ih
      exact fun hopened => absurd hopened hending
  | tooDeep _ htag _ hdeep _ ih =>
      have hin := StartTag.read?_leads htag
      have hspan := congrArg Span.start (StartTag.span_eq htag)
      refine hcons hin hin ⟨_, StartTag.beginsWith_element htag hspan, ?_⟩
        (by simp [Node.nestedAll]) ih
      exact fun _ _ hroom => absurd hroom (Nat.not_lt.mpr hdeep)
  | @element _ _ tag inside _ _ htag _ _ hinside _ ihinside ih =>
      have hin := StartTag.read?_leads htag
      have hout := hin.trans (hinside.leads.trans (tag.close_leads inside.next))
      refine hcons hin hout
        ⟨_, StartTag.beginsWith_element htag rfl, ?_⟩ ihinside ih
      intro _ hmode _
      refine ⟨fun child hchild => ?_, hinside.upToEndTag hmode⟩
      have hadmits := hinside.admits_nodes child hchild
      rw [hmode] at hadmits
      simpa [TextMode.admits] using hadmits

end

/-- The content of raw text elements is kept as it stands, whether white space
is condensed or not: it goes from the start tag to the first place where the end
tag of the element or of one around it begins, or to the end of the source. -/
theorem Template.read_keepsRawText (o : ReadOptions) (source : String) :
    ∀ p ∈ (Template.read o source).root.nested [],
      p.2.KeepsRawText o (Cursor.start source.toList) p.1 := by
  have hreads := siblings_reads o .data [] (Cursor.start source.toList)
  rw [(Template.read_of_reads hreads).1]
  exact hreads.keepsRawText

/-- Inside `p` a script goes on over brackets, braces, a comment and the end tag
of a longer name, to the end tag of `p` with which the source ends. -/
theorem Template.read_keepsRawText_script :
    let o : ReadOptions := ⟨.condense, 2⟩
    let content := "a \n </b {{é}} <!--</scripts>".toList
    ∃ p ∈ (Template.read o
        "<p><Script>a \n </b {{é}} <!--</scripts></P").root.nested [],
      p.1 = ["p"] ∧ Node.written p.2.children = content ∧
        UpToEndTag ["Script", "p"] (content ++ "</P".toList) content := by
  intro o content
  have heval :
      ((Template.read o
        "<p><Script>a \n </b {{é}} <!--</scripts></P").root.nested [])[1]?.map
        (fun p => (p.1, p.2.span.start, Node.written p.2.children)) =
          some (["p"], 3, content) := by
    decide +kernel
  obtain ⟨p, hp, hshape⟩ := Option.map_eq_some_iff.mp heval
  simp only [Prod.mk.injEq] at hshape
  obtain ⟨haround, hstart, hwritten⟩ := hshape
  have hmem := List.mem_of_getElem? hp
  obtain ⟨tag, hbegins, hkeeps⟩ := Template.read_keepsRawText o _ p hmem
  obtain ⟨c, hc, hoffset, htag⟩ := hbegins.startTag
  have hplace : c = ⟨3, "<Script>".toList ++ (content ++ "</P".toList)⟩ :=
    hc.eq_of_offset ⟨"<p>".toList, by decide +kernel, rfl⟩
      (by rw [hoffset, hstart])
  have hread : (StartTag.read? c).map
      (fun tag => (tag.name, tag.ending, tag.next.rest)) =
      some ("Script", .opened, content ++ "</P".toList) := by
    rw [hplace]
    decide +kernel
  rw [htag, Option.map_some, Option.some.injEq, Prod.mk.injEq,
    Prod.mk.injEq] at hread
  obtain ⟨hname, hending, hrest⟩ := hread
  have hcontent :=
    (hkeeps hending (by rw [hname]; decide) (by rw [haround]; decide)).2
  rw [hname, haround, hrest, hwritten] at hcontent
  exact ⟨p, hmem, haround, hwritten, hcontent⟩

end MarkupTemplate
