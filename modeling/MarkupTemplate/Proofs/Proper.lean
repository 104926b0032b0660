/-
What every tree is like that the reader makes.  Below the top there is no other
root and nothing has an expression; names are names, texts are not empty, an
element holds what its text mode admits, and the nesting limit bounds the depth.
-/
import MarkupTemplate.Proofs.CondensedForm
import MarkupTemplate.Proofs.Placement
import MarkupTemplate.Proofs.Quiet

namespace MarkupTemplate

/-- The kinds of nodes that content of a text mode may hold. -/
def TextMode.admits : TextMode → Kind → Bool
  | data, kind => kind != .root
  | rcdata, kind => kind == .text || kind == .interpolation
  | rawtext, kind | cdata, kind => kind == .text

/-- A node as it stands below the top of a template. -/
def Node.IsProper : Node → Prop
  | root .. => False
  | element tag attributes children selfClosing _ expr =>
      expr = none ∧ isTagName tag.toList = true ∧
        (∀ a ∈ attributes, a.name = "" ∨ isAttributeName a.name.toList = true) ∧
        (selfClosing = true → children = []) ∧
        ∀ child ∈ children, (TextMode.ofTag tag).admits child.kind = true
  | text content _ expr => expr = none ∧ content ≠ ""
  | interpolation _ _ expr => expr = none
  | comment _ _ expr => expr = none

/-- A proper node at a depth that a nesting limit allows.  The nodes at the
greatest depth hold nothing. -/
structure Node.IsProperAt (limit depth : Nat) (node : Node) : Prop where
  proper : node.IsProper
  depth_le : depth ≤ limit + 1
  children : depth = limit + 1 → node.children = []

theorem Siblings.textRun_ne_nil (mode : TextMode) {rest : List Char}
    (hrest : rest ≠ []) : Siblings.textRun mode rest ≠ [] := by
  cases rest with
  | nil => exact absurd rfl hrest
  | cons => simp [Siblings.textRun]

theorem Siblings.isProper_text (o : ReadOptions) (mode : TextMode) {c : Cursor}
    (hrest : c.rest ≠ []) :
    ∀ node ∈ (Siblings.text o mode c).nodes, node.IsProper := by
  have hrun := Siblings.textRun_ne_nil mode hrest
  intro node hnode
  obtain ⟨content, hcontent, rfl⟩ := List.mem_map.mp hnode
  refine ⟨rfl, ?_⟩
  simp only [ne_eq, String.ofList_eq_empty_iff]
  rw [Option.mem_toList] at hcontent
  split at hcontent
  · exact condense_ne_nil hrun hcontent
  · rwa [← Option.some.inj hcontent]

theorem Leaf.isProper_nodes {o : ReadOptions} {mode : TextMode} {c : Cursor}
    {item : Siblings} (h : Leaf o mode c item) (hrest : c.rest ≠ []) :
    ∀ node ∈ item.nodes, node.IsProper := by
  cases h with
  | comment => simp [Siblings.comment, Node.IsProper]
  | cdata =>
      simp only [Siblings.cdata]
      split
      · simp
      · next hbody => simpa [Node.IsProper] using hbody
  | unmatched => simp [Siblings.unmatched]
  | interpolation => simp [Siblings.interpolation, Node.IsProper]
  | text => exact Siblings.isProper_text o mode hrest

theorem Leaf.admits_nodes {o : ReadOptions} {mode : TextMode} {c : Cursor}
    {item : Siblings} (h : Leaf o mode c item) :
    ∀ node ∈ item.nodes, mode.admits node.kind = true := by
  cases h with
  | comment hmode => simp [hmode, Siblings.comment, TextMode.admits, Node.kind]
  | cdata hmode =>
      simp only [Siblings.cdata]
      split <;> simp [hmode, TextMode.admits, Node.kind]
  | unmatched => simp [Siblings.unmatched]
  | interpolation hmode =>
      cases mode <;> simp_all [Siblings.interpolation,
        TextMode.admits, Node.kind, TextMode.allowsInterpolation]
  | text => cases mode <;> simp [Siblings.text, TextMode.admits, Node.kind]

/-- Siblings are of the kinds that their text mode admits. -/
theorem Reads.admits_nodes {o : ReadOptions} {mode : TextMode}
    {opened : List String} {c : Cursor} {r : Siblings}
    (h : Reads o mode opened c r) :
    ∀ node ∈ r.nodes, mode.admits node.kind = true := by
  have helement : ∀ (tag : StartTag) (children : List Node) (span : Span),
      ∀ node ∈ [tag.element children span],
      TextMode.data.admits node.kind = true := by
    simp [StartTag.element, TextMode.admits, Node.kind]
  induction h with
  | ends => simp
  | leaf _ hleaf _ ih =>
      exact List.forall_mem_append.mpr ⟨hleaf.admits_nodes, ih⟩
  | alone _ _ _ _ ih => exact List.forall_mem_append.mpr ⟨helement _ _ _, ih⟩
  | tooDeep _ _ _ _ _ ih =>
      exact List.forall_mem_append.mpr ⟨helement _ _ _, ih⟩
  | element _ _ _ _ _ _ _ ih =>
      exact List.forall_mem_append.mpr ⟨helement _ _ _, ih⟩

theorem StartTag.isProper_element {c : Cursor} {tag : StartTag}
    (h : StartTag.read? c = some tag) {children : List Node}
    (hending : tag.ending = .opened ∨ children = [])
    (hadmits : ∀ child ∈ children,
      (TextMode.ofTag tag.name).admits child.kind = true)
    (span : Span) : (tag.element children span).IsProper := by
  refine ⟨rfl, StartTag.isTagName_name h, ?_, ?_, hadmits⟩
  · intro a ha
    have hreadable := StartTag.isReadable_attributes h a ha
    simp only [Attribute.isReadable, Bool.and_eq_true, Bool.or_eq_true,
      List.isEmpty_iff] at hreadable
    exact hreadable.1.imp_left String.toList_eq_nil_iff.mp
  · intro hself
    rcases hending with hopened | hnone
    · simp [hopened] at hself
    · exact hnone

theorem Leaf.isProperAt_nodes {o : ReadOptions} {mode : TextMode} {c : Cursor}
    {item : Siblings} (h : Leaf o mode c item) (hrest : c.rest ≠ [])
    {depth : Nat} (hdepth : depth ≤ o.maxDepth + 1) :
    ∀ p ∈ Node.preorders depth item.nodes, p.2.IsProperAt o.maxDepth p.1 := by
  intro p hp
  rw [Node.preorders_leaves h.isLeaf_nodes] at hp
  obtain ⟨node, hnode, rfl⟩ := List.mem_map.mp hp
  refine ⟨h.isProper_nodes hrest node hnode, hdepth, fun _ => ?_⟩
  have hleaf := h.isLeaf_nodes node hnode
  cases node with
  | root => exact absurd rfl hleaf.1
  | element => exact absurd rfl hleaf.2
  | _ => rfl

/-- Inside no more open elements than the limit allows, every node that is read
is proper and not too deep. -/
theorem Reads.isProperAt {o : ReadOptions} {mode : TextMode}
    {opened : List String} {c : Cursor} {r : Siblings}
    (h : Reads o mode opened c r) (hopened : opened.length ≤ o.maxDepth) :
    ∀ p ∈ Node.preorders (opened.length + 1) r.nodes,
      p.2.IsProperAt o.maxDepth p.1 := by
  have hcons : ∀ {depth : Nat} {tag : StartTag} {children later : List Node}
      {span : Span},
      (tag.element children span).IsProperAt o.maxDepth depth →
      (∀ p ∈ Node.preorders (depth + 1) children,
        p.2.IsProperAt o.maxDepth p.1) →
      (∀ p ∈ Node.preorders depth later, p.2.IsProperAt o.maxDepth p.1) →
      ∀ p ∈ Node.preorders depth ([tag.element children span] ++ later),
        p.2.IsProperAt o.maxDepth p.1 := by
    intro depth tag children later span helement hchildren hlater
    rw [StartTag.preorders_element]
    exact List.forall_mem_cons.mpr ⟨helement,
      List.forall_mem_append.mpr ⟨hchildren, hlater⟩⟩
  induction h with
  | ends => simp [Node.preorders]
  | leaf hgoes hleaf _ ih =>
      rw [Siblings.nodes_followedBy, Node.preorders_append]
      have hrest := ne_nil_of_endsContent hgoes
      exact List.forall_mem_append.mpr ⟨hleaf.isProperAt_nodes hrest (by omega),
        ih hopened⟩
  | alone _ htag _ _ ih =>
      have hproper := StartTag.isProper_element htag (.inr rfl) (by simp)
      exact hcons ⟨hproper _, by omega, fun _ => rfl⟩ (by simp [Node.preorders])
        (ih hopened)
  | tooDeep _ htag _ _ _ ih =>
      have hproper := StartTag.isProper_element htag (.inr rfl) (by simp)
      exact hcons ⟨hproper _, by omega, fun _ => rfl⟩ (by simp [Node.preorders])
        (ih hopened)
  | element _ htag hending hroom hinside _ ihinside ih =>
      -- an element with content has room below the limit
      have hproper :=
        StartTag.isProper_element htag (.inl hending) hinside.admits_nodes
      exact hcons ⟨hproper _, by omega, fun hdepth => by omega⟩ (ihinside hroom)
        (ih hopened)

/-- The tree of every template is proper: its top is the only root, no node has
an expression, and every node below the top is proper at its depth, the nodes
right below the top being at depth 1. -/
theorem Template.read_isProper (o : ReadOptions) (source : String) :
    let t := Template.read o source
    t.root.kind = .root ∧ t.root.expr? = none ∧
      ∀ p ∈ Node.preorders 1 t.root.children,
      p.2.IsProperAt o.maxDepth p.1 := by
  intro t
  have hreads := siblings_reads o .data [] (Cursor.start source.toList)
  rw [show t.root = _ from (Template.read_of_reads hreads).1]
  exact ⟨rfl, rfl, hreads.isProperAt (Nat.zero_le _)⟩

end MarkupTemplate
