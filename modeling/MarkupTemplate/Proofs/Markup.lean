/-
Trees written as markup, and what it takes for each kind of node that the
reader gives it back.
-/
import MarkupTemplate.Proofs.TagMarkup

namespace MarkupTemplate

namespace Node

mutual

/-- A tree as markup.  `gap` stands in front of the end of a start tag that
closes its element. -/
def markup (gap : List Char) : Node → List Char
  | root children _ _ => markups gap children
  | element tag attributes children selfClosing _ _ =>
      startTagMarkup gap tag attributes selfClosing ++
        if selfClosing then []
        else markups gap children ++ '<' :: '/' :: tag.toList ++ ['>']
  | text content _ _ => content.toList
  | interpolation expression _ _ =>
      ['{', '{'] ++ expression.toList ++ ['}', '}']
  | comment content _ _ => "<!--".toList ++ content.toList ++ "-->".toList

def markups (gap : List Char) : List Node → List Char
  | [] => []
  | node :: nodes => markup gap node ++ markups gap nodes

end

mutual

/-- A tree without the places of its parts in a source. -/
def unplaced : Node → Node
  | root children _ expr => root (unplacedAll children) ⟨0, 0⟩ expr
  | element tag attributes children selfClosing _ expr =>
      element tag (attributes.map Attribute.unplaced)
        (unplacedAll children) selfClosing ⟨0, 0⟩ expr
  | text content _ expr => text content ⟨0, 0⟩ expr
  | interpolation expression _ expr => interpolation expression ⟨0, 0⟩ expr
  | comment content _ expr => comment content ⟨0, 0⟩ expr

def unplacedAll : List Node → List Node
  | [] => []
  | node :: nodes => unplaced node :: unplacedAll nodes

end

theorem unplacedAll_append (first later : List Node) :
    unplacedAll (first ++ later) = unplacedAll first ++ unplacedAll later := by
  induction first with
  | nil => rfl
  | cons node nodes ih => simp [unplacedAll, ih]

end Node

/-- From `text` on, the reader makes these nodes, but for their places, has
nothing to complain of and stops in front of `tail`. -/
def Restores (o : ReadOptions) (mode : TextMode) (opened : List String)
    (text tail : List Char) (nodes : List Node) : Prop :=
  ∀ c : Cursor, c.rest = text → ∃ r, Reads o mode opened c r ∧
    Node.unplacedAll r.nodes = Node.unplacedAll nodes ∧ r.diagnostics = [] ∧
    r.next.rest = tail

theorem endsContent_of_not_slash {opened : List String} {text : List Char}
    (hne : text ≠ []) (hslash : ¬ ['<', '/'] <+: text) :
    endsContent opened text = false := by
  have hnone : ∀ name, opensEndTag name text = false := by
    intro name
    by_contra hopens
    obtain ⟨spelled, rest, htext, _⟩ :=
      opensEndTag_iff.mp (by simpa using hopens)
    exact hslash ⟨spelled ++ rest, htext.symm⟩
  simp [endsContent, hnone, hne]

theorem endsContent_of_startTag {opened : List String} {c : Cursor}
    {tag : StartTag} (htag : StartTag.read? c = some tag) :
    endsContent opened c.rest = false := by
  obtain ⟨x, more, hrest, hx⟩ := StartTag.exists_letter htag
  have hslash : '/' ≠ x := (ne_of_isAlpha hx (by decide)).symm
  rw [hrest]
  exact endsContent_of_not_slash (by simp) (by simp [hslash])

theorem endTagRest_of_close {c next : Cursor} {span : Span}
    (hclose : c.tagToken? = some (⟨.close, span⟩, next)) :
    endTagRest c = next := by
  rw [endTagRest]
  split <;> rename_i h <;> rw [hclose] at h <;> cases h
  rfl

theorem opensEndTag_markup (tag : String) (rest : List Char) :
    opensEndTag tag ('<' :: '/' :: (tag.toList ++ '>' :: rest)) = true :=
  opensEndTag_iff.mpr ⟨tag.toList, '>' :: rest, rfl, rfl,
    by simp [endsName, isTagNameChar]⟩

/-- A written end tag closes the element of its name. -/
theorem StartTag.close_markup {tag : StartTag}
    (hname : isTagName tag.name.toList = true) {c : Cursor} {rest : List Char}
    (hrest : c.rest = '<' :: '/' :: (tag.name.toList ++ '>' :: rest)) :
    ∃ next, tag.close c = ([], next) ∧ next.rest = rest := by
  have hends : endsName ('>' :: rest) = true := by
    simp [endsName, isTagNameChar]
  have hopens : opensEndTag tag.name c.rest = true := by
    rw [hrest]
    exact opensEndTag_markup tag.name rest
  have hahead : (c.advance ('<' :: '/' :: tag.name.toList)).rest =
      [] ++ (['>'] ++ rest) := by
    simp [hrest]
  have hclose := Cursor.tagToken?_close isTagSpace_of_mem_nil hahead
  refine ⟨_, ?_, Cursor.rest_advance_of_eq hahead⟩
  simp [StartTag.close, hopens, endTag?_of_name hname hends hrest,
    endTagRest_of_close hclose]

/-- Behind the body stands the first closing marker. -/
def ClosesFirst (closing body : List Char) : Prop :=
  ∀ part, part <:+ body → part ≠ [] → ¬ closing <+: part ++ closing

/-- What follows a text: the end of the source, or a delimiter. -/
def EndsRun (mode : TextMode) (rest : List Char) : Prop :=
  rest = [] ∨ Siblings.endsText mode rest = true

theorem endsRun_of_bracket {mode : TextMode} (hmode : mode ≠ .cdata)
    (rest : List Char) : EndsRun mode ('<' :: rest) :=
  Or.inr (by simp [Siblings.endsText_eq hmode])

theorem Siblings.endsText_eq_false_iff {mode : TextMode} (hmode : mode ≠ .cdata)
    {cs : List Char} :
    Siblings.endsText mode cs = false ↔
      ¬ ['<'] <+: cs ∧
      (mode.allowsInterpolation = true → ¬ ['{', '{'] <+: cs) := by
  simp only [Siblings.endsText_eq hmode, ← Bool.not_eq_true, Bool.or_eq_true,
    Bool.and_eq_true, List.isPrefixOf_iff_prefix, not_or, not_and]

theorem takeUntil_append {stops : List Char → Bool} {run rest : List Char}
    (hrun : ∀ part, part <:+ run → part ≠ [] → stops (part ++ rest) = false)
    (hrest : rest = [] ∨ stops rest = true) :
    takeUntil stops (run ++ rest) = run := by
  induction run with
  | nil =>
      rcases hrest with rfl | hstop
      · rfl
      · cases rest with
        | nil => rfl
        | cons x rest => simp [takeUntil, hstop]
  | cons x run ih =>
      have hgoes := hrun (x :: run) (List.suffix_refl _) (by simp)
      rw [List.cons_append] at hgoes ⊢
      rw [takeUntil, hgoes, if_neg (by simp),
        ih (fun part hpart => hrun part (hpart.trans (List.suffix_cons x run)))]

theorem takeUntil_closesFirst {closing body : List Char}
    (h : ClosesFirst closing body) (rest : List Char) :
    takeUntil closing.isPrefixOf (body ++ (closing ++ rest)) = body := by
  apply takeUntil_append
  · intro part hpart hne
    by_contra hclosing
    apply h part hpart hne
    rw [Bool.not_eq_false, List.isPrefixOf_iff_prefix,
      ← List.append_assoc] at hclosing
    apply List.prefix_of_prefix_length_le hclosing (List.prefix_append _ _)
    simp
  · exact Or.inr
      (List.isPrefixOf_iff_prefix.mpr (List.prefix_append closing rest))

theorem Enclosed.read_closesFirst
    {opening closing body rest : List Char} {c : Cursor}
    (hbody : ClosesFirst closing body)
    (hrest : c.rest = opening ++ body ++ closing ++ rest) :
    ∃ next, Enclosed.read opening closing c = ⟨body, true, next⟩ ∧
      next.rest = rest := by
  have hinside : (c.advance opening).rest = body ++ (closing ++ rest) := by
    simp [hrest]
  have hclosing : closing.isPrefixOf (closing ++ rest) = true :=
    List.isPrefixOf_iff_prefix.mpr (List.prefix_append closing rest)
  have hafter : ((c.advance opening).advance body).rest = closing ++ rest := by
    rw [Cursor.advance_rest, hinside, List.drop_left]
  refine ⟨((c.advance opening).advance body).advance closing, ?_, ?_⟩
  · simp only [Enclosed.read, hinside, takeUntil_closesFirst hbody, hafter,
      hclosing, if_true]
  · rw [Cursor.advance_rest, hafter, List.drop_left]

namespace Restores

variable {o : ReadOptions} {mode : TextMode} {opened : List String}
  {rest tail : List Char} {nodes : List Node}

theorem nil (hend : endsContent opened tail = true) :
    Restores o mode opened tail tail [] := by
  intro c hc
  exact ⟨_, .ends (by rw [hc]; exact hend), rfl, rfl, hc⟩

/-- A piece that is complete in itself makes one node, and reading goes on. -/
theorem leaf {text : List Char} {node : Node}
    (hgoes : endsContent opened text = false)
    (hleaf : ∀ c : Cursor, c.rest = text → ∃ item, Leaf o mode c item ∧
      Node.unplacedAll item.nodes = [node.unplaced] ∧ item.diagnostics = [] ∧
        item.next.rest = rest)
    (hlater : Restores o mode opened rest tail nodes) :
    Restores o mode opened text tail (node :: nodes) := by
  intro c hc
  obtain ⟨item, hread, hnodes, hclean, hnext⟩ := hleaf c hc
  obtain ⟨later, hreads, hothers, hrest, htail⟩ := hlater item.next hnext
  refine ⟨_, .leaf (by rw [hc]; exact hgoes) hread hreads, ?_, ?_, htail⟩
  · simp [Node.unplacedAll_append, hnodes, hothers, Node.unplacedAll]
  · simp [hclean, hrest]

theorem comment {gap : List Char} {content : String} {span : Span}
    (hcontent : ClosesFirst "-->".toList content.toList)
    (hlater : Restores o .data opened rest tail nodes) :
    Restores o .data opened
      ((Node.comment content span none).markup gap ++ rest) tail
        (.comment content span none :: nodes) := by
  refine leaf
    (endsContent_of_not_slash (by simp [Node.markup]) (by simp [Node.markup]))
    ?_ hlater
  intro c hc
  obtain ⟨next, hread, hnext⟩ := Enclosed.read_closesFirst hcontent hc
  refine ⟨_,
    .comment rfl
      ⟨_, by rw [hc, Node.markup, List.append_assoc, List.append_assoc]⟩, ?_⟩
  simp only [Siblings.comment, hread]
  simp [Node.unplacedAll, Node.unplaced, Siblings.diagnostics, hnext]

theorem interpolation {gap : List Char} {expression : String} {span : Span}
    (hmode : mode.allowsInterpolation = true)
    (hexpression : ClosesFirst ['}', '}'] expression.toList)
    (hlater : Restores o mode opened rest tail nodes) :
    Restores o mode opened
      ((Node.interpolation expression span none).markup gap ++ rest) tail
        (.interpolation expression span none :: nodes) := by
  refine leaf
    (endsContent_of_not_slash (by simp [Node.markup]) (by simp [Node.markup]))
    ?_ hlater
  intro c hc
  obtain ⟨next, hread, hnext⟩ := Enclosed.read_closesFirst hexpression hc
  refine ⟨_, .interpolation hmode
    ⟨_, by rw [hc, Node.markup, List.append_assoc, List.append_assoc]⟩, ?_⟩
  simp only [Siblings.interpolation, hread]
  simp [Node.unplacedAll, Node.unplaced, Siblings.diagnostics, hnext]

theorem text {gap : List Char} {content : String} {span : Span}
    (hpreserve : o.whitespace = .preserve) (hmode : mode ≠ .cdata)
    (hgoes : endsContent opened (content.toList ++ rest) = false)
    (hmarkup : mode = .data → NoMarkup (content.toList ++ rest))
    (hinline : mode.allowsInterpolation = true →
      ¬ ['{', '{'] <+: content.toList ++ rest)
    (hrun : Siblings.textRun mode (content.toList ++ rest) = content.toList)
    (hlater : Restores o mode opened rest tail nodes) :
    Restores o mode opened
      ((Node.text content span none).markup gap ++ rest) tail
        (.text content span none :: nodes) := by
  refine leaf hgoes ?_ hlater
  intro c hc
  simp only [Node.markup] at hc
  refine ⟨_, .text hmode (by rwa [hc]) (by rwa [hc]), ?_⟩
  simp [Siblings.text, hc, hrun, hpreserve, Node.unplacedAll, Node.unplaced,
    Siblings.diagnostics]

theorem selfClosing {gap : List Char} (hgap : ∀ x ∈ gap, isTagSpace x = true)
    {tag : String} {attributes : List Attribute} {span : Span}
    (htag : isTagName tag.toList = true)
    (hreadable : ∀ a ∈ attributes, a.isReadable = true)
    (hbare : ∀ a ∈ attributes, a.needsBare = true → gap ≠ [])
    (hlater : Restores o .data opened rest tail nodes) :
    Restores o .data opened
      ((Node.element tag attributes [] true span none).markup gap ++ rest)
      tail (.element tag attributes [] true span none :: nodes) := by
  intro c hc
  simp only [Node.markup, if_true, List.append_nil] at hc
  obtain ⟨found, hread, rfl, hattributes, hending, hproblems, hnext⟩ :=
    StartTag.read?_markup hgap htag hreadable hbare hc
  obtain ⟨later, hreads, hothers, hclean, htail⟩ := hlater found.next hnext
  refine ⟨_,
    .alone (endsContent_of_startTag hread) hread (by simp [hending]) hreads,
    ?_, ?_, htail⟩
  · simp [StartTag.alone, StartTag.element, Node.unplacedAll,
      Node.unplaced, hattributes, hending, hothers]
  · simp [hproblems, hclean]

/-- An element is read back around its content, which ends in front of the
element's own end tag. -/
theorem element {gap : List Char} (hgap : ∀ x ∈ gap, isTagSpace x = true)
    {tag : String} {attributes : List Attribute}
    {children : List Node} {span : Span} (htag : isTagName tag.toList = true)
    (hreadable : ∀ a ∈ attributes, a.isReadable = true)
    (hbare : ∀ a ∈ attributes, a.needsBare = true → gap ≠ [])
    (hroom : opened.length < o.maxDepth)
    (hinside : Restores o (TextMode.ofTag tag) (tag :: opened)
      (Node.markups gap children ++ '<' :: '/' :: (tag.toList ++ '>' :: rest))
      ('<' :: '/' :: (tag.toList ++ '>' :: rest)) children)
    (hlater : Restores o .data opened rest tail nodes) :
    Restores o .data opened
      ((Node.element tag attributes children false span none).markup gap
        ++ rest)
      tail (.element tag attributes children false span none :: nodes) := by
  intro c hc
  have hcut : c.rest = startTagMarkup gap tag attributes false ++
      (Node.markups gap children ++
        '<' :: '/' :: (tag.toList ++ '>' :: rest)) := by
    simp [hc, Node.markup]
  obtain ⟨found, hread, rfl, hattributes, hending, hproblems, hnext⟩ :=
    StartTag.read?_markup hgap htag hreadable hbare hcut
  obtain ⟨inside, hcontent, hchildren, hquiet, hend⟩ := hinside found.next hnext
  obtain ⟨behind, hclose, hbehind⟩ := StartTag.close_markup htag hend
  obtain ⟨later, hreads, hothers, hclean, htail⟩ := hlater behind hbehind
  refine ⟨_, .element (endsContent_of_startTag hread) hread (by simp [hending])
    hroom hcontent (by rw [hclose]; exact hreads), ?_, ?_, htail⟩
  · simp [StartTag.around, StartTag.element, Node.unplacedAll,
      Node.unplaced, hattributes, hchildren, hending, hothers]
  · simp [hproblems, hquiet, hclose, hclean]

end Restores

end MarkupTemplate
