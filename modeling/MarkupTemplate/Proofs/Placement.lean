/-
The stretches of the source that nodes, attributes and problems carry.  Each of
them lies between two places that reading passes, one behind the other, so it
begins and ends between two characters of the source.
-/
import MarkupTemplate.Proofs.Tree
import MarkupTemplate.Proofs.Reads

namespace MarkupTemplate

/-- A stretch between two places that are reached from a cursor. -/
def Cursor.Passes (c : Cursor) (s : Span) : Prop :=
  ∃ d e, c.Leads d ∧ d.Leads e ∧ s = d.spanTo e

theorem Cursor.Leads.passes {c d : Cursor} (h : c.Leads d) :
    c.Passes (c.spanTo d) :=
  ⟨c, d, Cursor.Leads.refl c, h, rfl⟩

theorem Cursor.Passes.of_leads {c d : Cursor} {s : Span} (hs : d.Passes s)
    (h : c.Leads d) : c.Passes s := by
  obtain ⟨e, f, he, hf, rfl⟩ := hs
  exact ⟨e, f, h.trans he, hf, rfl⟩

/-- A stretch of the source that begins and ends between two characters. -/
def Span.FitsIn (s : Span) (source : String) : Prop :=
  s.start ≤ s.stop ∧ s.stop ≤ source.utf8ByteSize ∧
    (⟨s.start⟩ : String.Pos.Raw).IsValid source ∧
    (⟨s.stop⟩ : String.Pos.Raw).IsValid source

theorem Cursor.Passes.fitsIn {source : String} {s : Span}
    (h : (Cursor.start source.toList).Passes s) : s.FitsIn source := by
  obtain ⟨c, d, hc, hd, rfl⟩ := h
  have hend := (hc.trans hd).toEnd_offset
  refine ⟨hd.offset_le, ?_, hc.isValid, (hc.trans hd).isValid⟩
  rw [← hend]
  exact Nat.le_add_right _ _

/-- Stretches one behind the other, from one cursor to another. -/
def InOrder : Cursor → List Span → Cursor → Prop
  | c, [], d => c.Leads d
  | c, s :: ss, d =>
      ∃ e f, c.Leads e ∧ e.Leads f ∧ s = e.spanTo f ∧ InOrder f ss d

namespace InOrder

variable {b c d e : Cursor} {ss : List Span}

theorem leads (h : InOrder c ss d) : c.Leads d := by
  induction ss generalizing c with
  | nil => exact h
  | cons s ss ih =>
      obtain ⟨e, f, he, hf, _, hlater⟩ := h
      exact he.trans (hf.trans (ih hlater))

theorem of_leads (hb : b.Leads c) (h : InOrder c ss d) : InOrder b ss d := by
  cases ss with
  | nil => exact hb.trans h
  | cons s ss =>
      obtain ⟨e, f, he, hlater⟩ := h
      exact ⟨e, f, hb.trans he, hlater⟩

theorem append {first later : List Span} (hfirst : InOrder b first c)
    (hlater : InOrder c later d) : InOrder b (first ++ later) d := by
  induction first generalizing b with
  | nil => exact hlater.of_leads hfirst
  | cons s ss ih =>
      obtain ⟨e, f, he, hf, hs, hrest⟩ := hfirst
      exact ⟨e, f, he, hf, hs, ih hrest⟩

theorem extend (h : InOrder b ss c) (hd : c.Leads d) : InOrder b ss d := by
  simpa using h.append (show InOrder c [] d from hd)

theorem passes (h : InOrder c ss d) : ∀ s ∈ ss, c.Passes s := by
  induction ss generalizing c with
  | nil => simp
  | cons s ss ih =>
      obtain ⟨e, f, he, hf, rfl, hlater⟩ := h
      intro t ht
      rcases List.mem_cons.mp ht with rfl | ht
      · exact ⟨e, f, he, hf, rfl⟩
      · exact (ih hlater t ht).of_leads (he.trans hf)

theorem bounds (h : InOrder c ss d) :
    ∀ s ∈ ss, c.offset ≤ s.start ∧ s.stop ≤ d.offset := by
  induction ss generalizing c with
  | nil => simp
  | cons s ss ih =>
      obtain ⟨e, f, he, hf, rfl, hlater⟩ := h
      intro t ht
      rcases List.mem_cons.mp ht with rfl | ht
      · exact ⟨he.offset_le, hlater.leads.offset_le⟩
      · have hbefore := (he.trans hf).offset_le
        obtain ⟨hstart, hstop⟩ := ih hlater t ht
        exact ⟨Nat.le_trans hbefore hstart, hstop⟩

theorem pairwise (h : InOrder c ss d) :
    ss.Pairwise fun s t => s.stop ≤ t.start := by
  induction ss generalizing c with
  | nil => exact List.Pairwise.nil
  | cons s ss ih =>
      obtain ⟨e, f, _, _, rfl, hlater⟩ := h
      exact List.Pairwise.cons (fun t ht => (hlater.bounds t ht).1) (ih hlater)

end InOrder

theorem Cursor.tagToken?_inOrder {c next : Cursor} {lexeme : Lexeme TagToken}
    (h : c.tagToken? = some (lexeme, next)) : InOrder c [lexeme.span] next := by
  obtain ⟨taken, hread, rfl, hspan⟩ := Cursor.lexeme?_eq_some h
  exact ⟨_, _, c.leads_skipSpace,
    Cursor.leads_advance (TagToken.first?_isPrefix hread), hspan,
    Cursor.Leads.refl _⟩

theorem Cursor.valueToken?_inOrder {c next : Cursor}
    {lexeme : Lexeme ValueToken} (h : c.valueToken? = some (lexeme, next)) :
    InOrder c [lexeme.span] next := by
  obtain ⟨taken, hread, rfl, hspan⟩ := Cursor.lexeme?_eq_some h
  exact ⟨_, _, c.leads_skipSpace,
    Cursor.leads_advance (ValueToken.first?_isPrefix hread), hspan,
    Cursor.Leads.refl _⟩

/-- The name of an attribute at an equals sign: the one that was waiting, or
the sign itself. -/
theorem TagRest.inOrder_name {b c next : Cursor}
    {pending : Option (Lexeme String)} {span : Span}
    (hpending : InOrder b (pending.toList.map Lexeme.span) c)
    (hsign : InOrder c [span] next) :
    InOrder b [(pending.getD ⟨"", span⟩).span] next := by
  cases pending with
  | none => exact hsign.of_leads hpending
  | some name => exact hpending.extend hsign.leads

theorem InOrder.withValue {b c next : Cursor} {name value : Span}
    (hname : InOrder b [name] c) (hvalue : InOrder c [value] next) :
    InOrder b [⟨name.start, value.stop⟩] next := by
  obtain ⟨d, e, hd, he, rfl, hc⟩ := hname
  obtain ⟨f, g, hf, hg, rfl, hnext⟩ := hvalue
  exact ⟨d, g, hd, he.trans (hc.trans (hf.trans hg)), rfl, hnext⟩

/-- The attributes of a start tag stand one behind the other. -/
theorem TagRest.read_inOrder (pending : Option (Lexeme String)) (c : Cursor) :
    ∀ b : Cursor, InOrder b (pending.toList.map Lexeme.span) c →
      InOrder b ((TagRest.read pending c).attributes.map Attribute.span)
        (TagRest.read pending c).next := by
  -- the name that waits for its value is the last thing read before the cursor
  have hwaiting : ∀ pending : Option (Lexeme String),
      (pending.toList.map Attribute.ofName).map Attribute.span =
        pending.toList.map Lexeme.span := by
    intro pending
    cases pending <;> rfl
  fun_induction TagRest.read pending c with
  | case1 pending c waiting h =>
      intro b hpending
      rw [hwaiting]
      exact hpending.extend c.leads_toEnd
  | case2 pending c waiting name span next h ih =>
      intro b hpending
      rw [← hwaiting] at hpending
      simp only [TagRest.after, List.map_append]
      exact hpending.append (ih c (Cursor.tagToken?_inOrder h))
  | case3 pending c span next h name hv =>
      intro b hpending
      have hname := TagRest.inOrder_name hpending (Cursor.tagToken?_inOrder h)
      exact hname.extend next.leads_toEnd
  | case4 pending c span next h name value valueSpan behind hv ih =>
      intro b hpending
      have hname := TagRest.inOrder_name hpending (Cursor.tagToken?_inOrder h)
      have hvalue := hname.withValue (Cursor.valueToken?_inOrder hv)
      simp only [TagRest.after, List.map_append, List.map_singleton]
      exact hvalue.append (ih behind (Cursor.Leads.refl behind))
  | case5 pending c span next h name value valueSpan behind hv ih =>
      intro b hpending
      have hname := TagRest.inOrder_name hpending (Cursor.tagToken?_inOrder h)
      have hvalue := hname.withValue (Cursor.valueToken?_inOrder hv)
      simp only [TagRest.after, List.map_append, List.map_singleton]
      exact hvalue.append (ih behind (Cursor.Leads.refl behind))
  | case6 pending c span next h name quote behind hv =>
      intro b hpending
      have hname := TagRest.inOrder_name hpending (Cursor.tagToken?_inOrder h)
      have hnone : (TagRest.afterOpenQuote name quote behind).attributes =
          [] := by
        simp only [TagRest.afterOpenQuote]
        split <;> rfl
      rw [hnone]
      exact hname.leads.trans ((Cursor.valueToken?_leads hv).trans
        (TagRest.afterOpenQuote_leads name quote behind))
  | case7 pending c span next h name _ behind hv =>
      intro b hpending
      have hname := TagRest.inOrder_name hpending (Cursor.tagToken?_inOrder h)
      exact hname.extend (Cursor.valueToken?_leads hv)
  | case8 pending c waiting span next h =>
      intro b hpending
      rw [hwaiting]
      exact hpending.extend (Cursor.tagToken?_leads h)
  | case9 pending c waiting span next h =>
      intro b hpending
      rw [hwaiting]
      exact hpending.extend (Cursor.tagToken?_leads h)
  | case10 pending c waiting =>
      intro b hpending
      rw [hwaiting]
      exact hpending.extend c.leads_skipSpace
  | case11 pending c waiting =>
      intro b hpending
      rw [hwaiting]
      exact hpending.extend c.leads_skipSpace
  | case12 pending c span next h ih =>
      intro b hpending
      exact ih b (hpending.extend (Cursor.tagToken?_leads h))

theorem TagRest.read_problems (pending : Option (Lexeme String)) (c : Cursor) :
    ∀ d ∈ (TagRest.read pending c).problems, c.Passes d.span := by
  fun_induction TagRest.read pending c with
  | case6 pending c span next h name quote behind hv =>
      have hopens : ∀ d ∈ (TagRest.afterOpenQuote name quote behind).problems,
          d.span = ⟨quote.start, behind.toEnd.offset⟩ := by
        simp only [TagRest.afterOpenQuote]
        split <;> simp [Diagnostic.span]
      obtain ⟨taken, hread, rfl, hspan⟩ := Cursor.lexeme?_eq_some hv
      intro d hd
      rw [hopens d hd, show quote = _ from hspan]
      refine ⟨next.skipSpace, _,
        (Cursor.tagToken?_leads h).trans next.leads_skipSpace, ?_, rfl⟩
      exact (Cursor.leads_advance (ValueToken.first?_isPrefix hread)).trans
        (Cursor.leads_toEnd _)
  | case2 pending c waiting name span next h ih =>
      exact fun d hd => (ih d hd).of_leads (Cursor.tagToken?_leads h)
  | case4 pending c span next h name value valueSpan behind hv ih =>
      exact fun d hd => (ih d hd).of_leads
        ((Cursor.tagToken?_leads h).trans (Cursor.valueToken?_leads hv))
  | case5 pending c span next h name value valueSpan behind hv ih =>
      exact fun d hd => (ih d hd).of_leads
        ((Cursor.tagToken?_leads h).trans (Cursor.valueToken?_leads hv))
  | case12 pending c span next h ih =>
      exact fun d hd => (ih d hd).of_leads (Cursor.tagToken?_leads h)
  | _ => simp

namespace StartTag

variable {c : Cursor} {tag : StartTag}

theorem span_eq (h : StartTag.read? c = some tag) :
    tag.span = c.spanTo tag.next := by
  obtain ⟨_, _, _, _, _, _, _, _, hnext, hspan, _⟩ := StartTag.read?_eq_some h
  rw [hspan, hnext]

theorem name_leads {spelled rest : List Char}
    (hrest : c.rest = '<' :: (spelled ++ rest)) :
    c.Leads (c.advance ('<' :: spelled)) :=
  Cursor.leads_advance ⟨rest, by rw [hrest, List.cons_append]⟩

theorem inOrder_attributes (h : StartTag.read? c = some tag) :
    InOrder c (tag.attributes.map Attribute.span) tag.next := by
  obtain ⟨spelled, rest, hrest, _, _, _, hattributes, _, hnext, _⟩ :=
    StartTag.read?_eq_some h
  rw [hattributes, hnext]
  exact (TagRest.read_inOrder none _ _ (Cursor.Leads.refl _)).of_leads
    (name_leads hrest)

theorem passes_problems (h : StartTag.read? c = some tag) :
    ∀ d ∈ tag.problems, c.Passes d.span := by
  have hleads := StartTag.read?_leads h
  have hspan := span_eq h
  obtain ⟨spelled, rest, hrest, _, _, _, _, _, _, _, hproblems⟩ :=
    StartTag.read?_eq_some h
  intro d hd
  rw [hproblems] at hd
  rcases List.mem_append.mp hd with hd | hd
  · exact (TagRest.read_problems none _ d hd).of_leads (name_leads hrest)
  · split at hd
    · rw [List.mem_singleton.mp hd, Diagnostic.span, hspan]
      exact hleads.passes
    · simp at hd

end StartTag

/-- The attributes of an element; other nodes have none. -/
def Node.attributes : Node → List Attribute
  | element _ attributes _ _ _ _ => attributes
  | _ => []

theorem StartTag.preorders_element (tag : StartTag)
    (children later : List Node) (span : Span) (depth : Nat) :
    Node.preorders depth ([tag.element children span] ++ later) =
      (depth, tag.element children span) ::
        (Node.preorders (depth + 1) children ++
          Node.preorders depth later) := by
  simp [Node.preorders, StartTag.element, Node.preorder]

/-- A node and its attributes carry stretches that are passed from a cursor. -/
def Node.PassedFrom (c : Cursor) (node : Node) : Prop :=
  c.Passes node.span ∧ ∀ a ∈ node.attributes, c.Passes a.span

theorem Node.PassedFrom.of_leads {c d : Cursor} {node : Node}
    (h : node.PassedFrom d) (hc : c.Leads d) : node.PassedFrom c :=
  ⟨h.1.of_leads hc, fun a ha => (h.2 a ha).of_leads hc⟩

theorem StartTag.passedFrom_element {c d : Cursor} {tag : StartTag}
    (h : StartTag.read? c = some tag) (hd : c.Leads d) (children : List Node) :
    (tag.element children (c.spanTo d)).PassedFrom c := by
  refine ⟨hd.passes, fun a ha => ?_⟩
  exact (StartTag.inOrder_attributes h).passes a.span (List.mem_map_of_mem ha)

/-- The nodes of a run, with all below them, and the problems noted with it
carry stretches that are passed from a cursor. -/
structure Siblings.PassedFrom (c : Cursor) (r : Siblings) : Prop where
  nodes : ∀ depth, ∀ p ∈ Node.preorders depth r.nodes, p.2.PassedFrom c
  problems : ∀ d ∈ r.diagnostics, c.Passes d.span

theorem Siblings.PassedFrom.followedBy {c d : Cursor} {first later : Siblings}
    (hfirst : first.PassedFrom c) (hlater : later.PassedFrom d)
    (hd : c.Leads d) : (first.followedBy later).PassedFrom c := by
  constructor
  · intro depth p hp
    rw [Siblings.nodes_followedBy, Node.preorders_append] at hp
    rcases List.mem_append.mp hp with hp | hp
    · exact hfirst.nodes depth p hp
    · exact (hlater.nodes depth p hp).of_leads hd
  · intro d hd'
    rw [Siblings.diagnostics_followedBy] at hd'
    rcases List.mem_append.mp hd' with hd' | hd'
    · exact hfirst.problems d hd'
    · exact (hlater.problems d hd').of_leads hd

theorem Leaf.isLeaf_nodes {o : ReadOptions} {mode : TextMode} {c : Cursor}
    {item : Siblings} (h : Leaf o mode c item) :
    ∀ node ∈ item.nodes, node.IsLeaf := by
  cases h with
  | comment => simp [Siblings.comment, Node.IsLeaf, Node.kind]
  | cdata =>
      simp only [Siblings.cdata]
      split <;> simp [Node.IsLeaf, Node.kind]
  | unmatched => simp [Siblings.unmatched]
  | interpolation => simp [Siblings.interpolation, Node.IsLeaf, Node.kind]
  | text => simp [Siblings.text, Node.IsLeaf, Node.kind]

theorem Leaf.passes_nodes {o : ReadOptions} {mode : TextMode} {c : Cursor}
    {item : Siblings} (h : Leaf o mode c item) :
    ∀ node ∈ item.nodes, c.Passes node.span := by
  have hnext := h.leads.passes
  cases h with
  | comment =>
      intro node hnode
      rw [List.mem_singleton.mp hnode]
      exact hnext
  | cdata _ hopening =>
      intro node hnode
      simp only [Siblings.cdata] at hnode
      split at hnode
      · simp at hnode
      · rw [List.mem_singleton.mp hnode]
        exact (Enclosed.leads_body _ _ c).passes.of_leads
          (Cursor.leads_advance hopening)
  | unmatched => simp [Siblings.unmatched]
  | interpolation =>
      intro node hnode
      rw [List.mem_singleton.mp hnode]
      exact hnext
  | text =>
      intro node hnode
      obtain ⟨content, _, rfl⟩ := List.mem_map.mp hnode
      exact hnext

theorem Leaf.passes_problems {o : ReadOptions} {mode : TextMode} {c : Cursor}
    {item : Siblings} (h : Leaf o mode c item) :
    ∀ d ∈ item.diagnostics, c.Passes d.span := by
  have hspan : ∀ d ∈ item.diagnostics, d.span = c.spanTo item.next := by
    cases h with
    | comment =>
        simp only [Siblings.comment, Siblings.diagnostics]
        split <;> simp [Diagnostic.span]
    | cdata =>
        simp only [Siblings.cdata, Siblings.diagnostics]
        split <;> simp [Diagnostic.span]
    | unmatched =>
        simp [Siblings.unmatched, Siblings.diagnostics, Diagnostic.span]
    | interpolation =>
        simp only [Siblings.interpolation, Siblings.diagnostics]
        split <;> simp [Diagnostic.span]
    | text => simp [Siblings.text, Siblings.diagnostics]
  intro d hd
  rw [hspan d hd]
  exact h.leads.passes

theorem Leaf.passedFrom {o : ReadOptions} {mode : TextMode} {c : Cursor}
    {item : Siblings} (h : Leaf o mode c item) : item.PassedFrom c := by
  refine ⟨fun depth p hp => ?_, h.passes_problems⟩
  rw [Node.preorders_leaves h.isLeaf_nodes, List.mem_map] at hp
  obtain ⟨node, hnode, rfl⟩ := hp
  refine ⟨h.passes_nodes node hnode, ?_⟩
  have hleaf := h.isLeaf_nodes node hnode
  cases node <;> simp_all [Node.attributes, Node.IsLeaf, Node.kind]

theorem StartTag.passedFrom_alone {c : Cursor} {tag : StartTag}
    (h : StartTag.read? c = some tag) {problems : List Diagnostic}
    (hproblems : ∀ d ∈ problems, c.Passes d.span) :
    (tag.alone c problems).PassedFrom c := by
  constructor
  · intro depth p hp
    simp only [StartTag.alone, Node.preorders, StartTag.element, Node.preorder,
      List.append_nil, List.mem_singleton] at hp
    rw [hp]
    have hnode := StartTag.passedFrom_element h (StartTag.read?_leads h) []
    rwa [← StartTag.span_eq h] at hnode
  · intro d hd
    rw [StartTag.diagnostics_alone] at hd
    rcases List.mem_append.mp hd with hd | hd
    · exact StartTag.passes_problems h d hd
    · exact hproblems d hd

theorem StartTag.passedFrom_around {c : Cursor} {tag : StartTag}
    {inside : Siblings} (h : StartTag.read? c = some tag)
    (hinside : inside.PassedFrom tag.next)
    (hnext : tag.next.Leads inside.next) :
    (tag.around c inside).PassedFrom c := by
  have hin := StartTag.read?_leads h
  have hout := hin.trans (hnext.trans (tag.close_leads inside.next))
  constructor
  · intro depth p hp
    simp only [StartTag.around, Node.preorders, StartTag.element, Node.preorder,
      List.append_nil, List.mem_cons] at hp
    rcases hp with rfl | hp
    · exact StartTag.passedFrom_element h hout inside.nodes
    · exact (hinside.nodes (depth + 1) p hp).of_leads hin
  · intro d hd
    rw [StartTag.diagnostics_around] at hd
    rcases List.mem_append.mp hd with hd | hd
    · rcases List.mem_append.mp hd with hd | hd
      · exact StartTag.passes_problems h d hd
      · exact (hinside.problems d hd).of_leads hin
    · have hspan : d.span = tag.span := by
        simp only [StartTag.close] at hd
        split at hd
        · simp at hd
        · rw [List.mem_singleton.mp hd]
          rfl
      rw [hspan, StartTag.span_eq h]
      exact hin.passes

/-- Whatever reading makes, of nodes, attributes or problems, carries stretches
that reading passes. -/
theorem Reads.passedFrom {o : ReadOptions} {mode : TextMode}
    {opened : List String} {c : Cursor} {r : Siblings}
    (h : Reads o mode opened c r) : r.PassedFrom c := by
  induction h with
  | ends => exact ⟨by simp [Node.preorders], by simp [Siblings.diagnostics]⟩
  | leaf _ hleaf _ ih => exact hleaf.passedFrom.followedBy ih hleaf.leads
  | alone _ htag _ _ ih =>
      exact (StartTag.passedFrom_alone htag (by simp)).followedBy ih
        (StartTag.read?_leads htag)
  | @tooDeep _ c tag _ _ htag _ _ _ ih =>
      have hin := StartTag.read?_leads htag
      have hdeep :
          ∀ d ∈ [Diagnostic.nestingTooDeep tag.name o.maxDepth tag.span],
          c.Passes d.span := by
        intro d hd
        rw [List.mem_singleton.mp hd, Diagnostic.span, StartTag.span_eq htag]
        exact hin.passes
      exact (StartTag.passedFrom_alone htag hdeep).followedBy ih hin
  | @element _ c tag inside _ _ htag _ _ hinside _ ihinside ih =>
      have hnext := hinside.leads
      have hout := (StartTag.read?_leads htag).trans
        (hnext.trans (tag.close_leads inside.next))
      exact (StartTag.passedFrom_around htag ihinside hnext).followedBy ih hout

/-- Everything in a template and every complaint about it has its place in the
source. -/
theorem Template.read_fitsIn (o : ReadOptions) (source : String) :
    let t := Template.read o source
    (∀ p ∈ t.root.preorder 0, p.2.span.FitsIn source ∧
      ∀ a ∈ p.2.attributes, a.span.FitsIn source) ∧
    ∀ d ∈ t.diagnostics, d.span.FitsIn source := by
  intro t
  have hreads := siblings_reads o .data [] (Cursor.start source.toList)
  obtain ⟨hroot, hdiagnostics⟩ := Template.read_of_reads hreads
  have hpassed := hreads.passedFrom
  rw [show t.root = _ from hroot, show t.diagnostics = _ from hdiagnostics]
  refine ⟨fun p hp => ?_, fun d hd => (hpassed.problems d hd).fitsIn⟩
  rcases List.mem_cons.mp hp with rfl | hp
  · have hwhole := (Cursor.start source.toList).leads_toEnd.passes.fitsIn
    exact ⟨by simpa [Node.span, Cursor.spanTo, Cursor.start, Cursor.toEnd]
      using hwhole, by simp [Node.attributes]⟩
  · obtain ⟨hspan, hattributes⟩ := hpassed.nodes 1 p hp
    exact ⟨hspan.fitsIn, fun a ha => (hattributes a ha).fitsIn⟩

end MarkupTemplate
