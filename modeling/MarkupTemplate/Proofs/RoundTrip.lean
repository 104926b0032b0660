/-
Well-formed trees survive being written as markup and read again.  A tree is
well formed when each of its parts can be told from what surrounds it: names
and values hold none of the characters that end them, texts hold no opening
delimiter, and no delimiter comes about where two parts meet.
-/
import MarkupTemplate.Proofs.Markup

namespace MarkupTemplate

/-- A name that is there and a value that double quotes can enclose. -/
def Attribute.isPlain (a : Attribute) : Bool :=
  isAttributeName a.name.toList && !a.value.toList.contains '"'

/-- A text in which nothing begins.  A single brace at its end could make an
interpolation together with what follows. -/
def isPlainText (mode : TextMode) (content : List Char) : Bool :=
  !content.isEmpty && !content.contains '<' &&
    (mode == .rawtext ||
      (!decide (['{', '{'] <:+: content) && content.getLast? != some '{'))

def isPlainExpression (expression : List Char) : Bool :=
  !decide (['}', '}'] <:+: expression) && expression.getLast? != some '}'

def isPlainComment (content : List Char) : Bool :=
  !decide ("-->".toList <:+: content)

namespace Node

def meetsText (node : Node) (nodes : List Node) : Bool :=
  node.kind == .text && nodes.head?.map kind == some .text

mutual

/-- Whether a tree below the root is well formed, inside `around` elements of
which the innermost is read in this mode. -/
def wellFormed (limit : Nat) (mode : TextMode) (around : Nat) : Node → Bool
  | root _ _ _ => false
  | element tag attributes children selfClosing _ expr =>
      expr.isNone && mode.allowsMarkup && isTagName tag.toList &&
        attributes.all Attribute.isPlain &&
        if selfClosing then children.isEmpty
        else around < limit && wellFormedAll limit (TextMode.ofTag tag)
          (around + 1) children
  | text content _ expr => expr.isNone && isPlainText mode content.toList
  | interpolation expression _ expr =>
      expr.isNone && mode.allowsInterpolation &&
        isPlainExpression expression.toList
  | comment content _ expr =>
      expr.isNone && mode.allowsMarkup && isPlainComment content.toList

def wellFormedAll (limit : Nat) (mode : TextMode) (around : Nat) :
    List Node → Bool
  | [] => true
  | node :: nodes =>
      wellFormed limit mode around node && !node.meetsText nodes &&
        wellFormedAll limit mode around nodes

end

end Node

theorem Attribute.isReadable_of_isPlain {a : Attribute} (h : a.isPlain = true) :
    a.isReadable = true ∧ a.needsBare = false := by
  simp only [Attribute.isPlain, Bool.and_eq_true, Bool.not_eq_true'] at h
  have hbare : a.needsBare = false := by
    rw [Attribute.needsBare, h.2, Bool.false_and]
  exact ⟨by simp [Attribute.isReadable, h.1, hbare], hbare⟩

/-- Without the pair in a text, and without its half at the end, the pair does
not come about further on either. -/
theorem not_pair_of_part {x : Char} {run part : List Char}
    (hpair : ¬ [x, x] <:+: run) (hlast : run.getLast? ≠ some x)
    (hpart : part <:+ run) (hne : part ≠ []) (rest : List Char) :
    ¬ [x, x] <+: part ++ rest := by
  intro hbegins
  cases part with
  | nil => exact hne rfl
  | cons y part =>
      cases part with
      | nil =>
          obtain ⟨before, rfl⟩ := hpart
          simp only [List.cons_append, List.cons_prefix_cons] at hbegins
          simp [hbegins.1] at hlast
      | cons z part =>
          simp only [List.cons_append, List.cons_prefix_cons] at hbegins
          obtain ⟨rfl, rfl, _⟩ := hbegins
          exact hpair
            ((List.prefix_append [x, x] part).isInfix.trans hpart.isInfix)

theorem closesFirst_of_isPlainExpression {expression : List Char}
    (h : isPlainExpression expression = true) :
    ClosesFirst ['}', '}'] expression := by
  simp only [isPlainExpression, Bool.and_eq_true, Bool.not_eq_true',
    decide_eq_false_iff_not, bne_iff_ne] at h
  intro part hpart hne
  exact not_pair_of_part h.1 h.2 hpart hne _

theorem closesFirst_of_isPlainComment {content : List Char}
    (h : isPlainComment content = true) : ClosesFirst "-->".toList content := by
  simp only [isPlainComment, Bool.not_eq_true', decide_eq_false_iff_not] at h
  intro part hpart hne hbegins
  -- the last character of the marker stands nowhere else in it
  match part with
  | [] => exact hne rfl
  | [_] => simp at hbegins
  | [_, _] => simp at hbegins
  | x :: y :: z :: part =>
      apply h
      refine List.IsInfix.trans (List.IsPrefix.isInfix ?_) hpart.isInfix
      apply List.prefix_of_prefix_length_le hbegins (List.prefix_append _ _)
      simp

theorem Node.endsRun_markup {limit around : Nat} {mode : TextMode}
    (hmode : mode ≠ .cdata) {node : Node}
    (h : node.wellFormed limit mode around = true) (hkind : node.kind ≠ .text)
    (gap rest : List Char) : EndsRun mode (node.markup gap ++ rest) := by
  cases node with
  | root => simp [wellFormed] at h
  | element => exact endsRun_of_bracket hmode _
  | text => simp [Node.kind] at hkind
  | interpolation =>
      simp only [wellFormed, Bool.and_eq_true] at h
      exact Or.inr (by simp [Siblings.endsText_eq hmode, h.1.2, Node.markup])
  | comment => exact endsRun_of_bracket hmode _

/-- Nothing begins inside a plain text, also not together with what follows. -/
theorem endsText_of_isPlainText {mode : TextMode} (hmode : mode ≠ .cdata)
    {content part : List Char} (hplain : isPlainText mode content = true)
    (hpart : part <:+ content) (hne : part ≠ []) (rest : List Char) :
    Siblings.endsText mode (part ++ rest) = false := by
  simp only [isPlainText, Bool.and_eq_true, Bool.not_eq_true',
    Bool.or_eq_true, beq_iff_eq, decide_eq_false_iff_not, bne_iff_ne] at hplain
  rw [Siblings.endsText_eq_false_iff hmode]
  constructor
  · intro hbegins
    cases part with
    | nil => exact hne rfl
    | cons x part =>
        simp only [List.cons_append, List.cons_prefix_cons] at hbegins
        have hmem : '<' ∈ content :=
          hpart.mem (by rw [hbegins.1]; exact List.mem_cons_self)
        simp [hmem] at hplain
  · intro hallows
    rcases hplain.2 with rfl | ⟨hbraces, hlast⟩
    · simp [TextMode.allowsInterpolation] at hallows
    · exact not_pair_of_part hbraces hlast hpart hne rest

theorem Restores.plainText {o : ReadOptions} {mode : TextMode}
    {opened : List String} {gap rest tail : List Char} {nodes : List Node}
    {content : String} {span : Span} (hpreserve : o.whitespace = .preserve)
    (hmode : mode ≠ .cdata) (hplain : isPlainText mode content.toList = true)
    (hrest : EndsRun mode rest)
    (hlater : Restores o mode opened rest tail nodes) :
    Restores o mode opened
      ((Node.text content span none).markup gap ++ rest) tail
        (.text content span none :: nodes) := by
  have hne : content.toList ≠ [] := by
    intro hnil
    simp [isPlainText, hnil] at hplain
  obtain ⟨hbracket, hinline⟩ := (Siblings.endsText_eq_false_iff hmode).mp
    (endsText_of_isPlainText hmode hplain (List.suffix_refl _) hne rest)
  have hslash : ¬ ['<', '/'] <+: content.toList ++ rest :=
    fun hbegins => hbracket (List.IsPrefix.trans ⟨_, rfl⟩ hbegins)
  refine Restores.text hpreserve hmode
    (endsContent_of_not_slash (by simp [hne]) hslash)
    (fun _ => NoMarkup.of_not_bracket hbracket) hinline ?_ hlater
  cases hcontent : content.toList with
  | nil => exact absurd hcontent hne
  | cons x more =>
      rw [List.cons_append, Siblings.textRun]
      rw [takeUntil_append _ hrest]
      intro part hpart hpartNe
      apply endsText_of_isPlainText hmode hplain _ hpartNe
      rw [hcontent]
      exact hpart.trans (List.suffix_cons x more)

mutual

/-- A well-formed node is read back in front of whatever its siblings are read
back from. -/
theorem Node.restores {o : ReadOptions} (hpreserve : o.whitespace = .preserve) :
    ∀ (node : Node) {mode : TextMode} {opened : List String}
      {rest tail : List Char} {nodes : List Node}, mode ≠ .cdata →
      node.wellFormed o.maxDepth mode opened.length = true →
      (node.kind = .text → EndsRun mode rest) →
      Restores o mode opened rest tail nodes →
      Restores o mode opened (node.markup [] ++ rest) tail (node :: nodes)
  | root .., _, _, _, _, _, _, h, _, _ => by simp [wellFormed] at h
  | text content span expr, mode, opened, rest, tail, nodes, hmode, h,
    hrest, hlater => by
      simp only [wellFormed, Bool.and_eq_true, Option.isNone_iff_eq_none] at h
      obtain ⟨rfl, hplain⟩ := h
      exact Restores.plainText hpreserve hmode hplain (hrest rfl) hlater
  | interpolation expression span expr, mode, opened, rest, tail, nodes, _, h,
    _, hlater => by
      simp only [wellFormed, Bool.and_eq_true, Option.isNone_iff_eq_none] at h
      obtain ⟨⟨rfl, hmode⟩, hplain⟩ := h
      exact Restores.interpolation hmode
        (closesFirst_of_isPlainExpression hplain) hlater
  | comment content span expr, mode, opened, rest, tail, nodes, _, h,
    _, hlater => by
      simp only [wellFormed, Bool.and_eq_true, Option.isNone_iff_eq_none,
        TextMode.allowsMarkup_iff] at h
      obtain ⟨⟨rfl, rfl⟩, hplain⟩ := h
      exact Restores.comment (closesFirst_of_isPlainComment hplain) hlater
  | element tag attributes children selfClosing span expr, mode,
    opened, rest, tail, nodes, _, h, _, hlater => by
      simp only [wellFormed, Bool.and_eq_true, Option.isNone_iff_eq_none,
        TextMode.allowsMarkup_iff, List.all_eq_true] at h
      obtain ⟨⟨⟨⟨rfl, rfl⟩, htag⟩, hplain⟩, hcontent⟩ := h
      have hreadable : ∀ a ∈ attributes, a.isReadable = true :=
        fun a ha => (Attribute.isReadable_of_isPlain (hplain a ha)).1
      have hbare : ∀ a ∈ attributes, a.needsBare = true →
          ([] : List Char) ≠ [] := by
        intro a ha hneeds
        simp [(Attribute.isReadable_of_isPlain (hplain a ha)).2] at hneeds
      cases selfClosing with
      | true =>
          simp only [if_true, List.isEmpty_iff] at hcontent
          subst hcontent
          exact Restores.selfClosing (by simp) htag hreadable hbare hlater
      | false =>
          simp only [Bool.false_eq_true, if_false, Bool.and_eq_true,
            decide_eq_true_eq] at hcontent
          refine Restores.element (by simp) htag hreadable hbare
            hcontent.1 ?_ hlater
          have hmode := TextMode.ofTag_ne_cdata tag
          refine Node.restoresAll hpreserve children hmode hcontent.2 ?_ ?_
          · simp [endsContent, opensEndTag_markup]
          · exact endsRun_of_bracket hmode _

theorem Node.restoresAll {o : ReadOptions}
    (hpreserve : o.whitespace = .preserve) :
    ∀ (nodes : List Node) {mode : TextMode} {opened : List String}
      {tail : List Char}, mode ≠ .cdata →
      wellFormedAll o.maxDepth mode opened.length nodes = true →
      endsContent opened tail = true → EndsRun mode tail →
      Restores o mode opened (markups [] nodes ++ tail) tail nodes
  | [], _, _, _, _, _, hend, _ => Restores.nil hend
  | node :: nodes, mode, opened, tail, hmode, h, hend, htail => by
      simp only [wellFormedAll, Bool.and_eq_true, Bool.not_eq_true'] at h
      obtain ⟨⟨hnode, hmeets⟩, hnodes⟩ := h
      have hlater := Node.restoresAll hpreserve nodes hmode hnodes hend htail
      rw [markups, List.append_assoc]
      apply Node.restores hpreserve node hmode hnode _ hlater
      intro hkind
      cases nodes with
      | nil => exact htail
      | cons next nodes =>
          simp only [wellFormedAll, Bool.and_eq_true] at hnodes
          rw [markups, List.append_assoc]
          apply Node.endsRun_markup hmode hnodes.1.1
          intro hnext
          simp [meetsText, hkind, hnext] at hmeets

end

/-- Reading gives back every well-formed tree from its markup, and has nothing
to complain of. -/
theorem Template.read_markup (limit : Nat) (children : List Node) (span : Span)
    (h : Node.wellFormedAll limit .data 0 children = true) :
    let tree := Node.root children span none
    let t := Template.read ⟨.preserve, limit⟩ (String.ofList (tree.markup []))
    t.diagnostics = [] ∧ t.root.unplaced = tree.unplaced := by
  have hrestores :
      Restores ⟨.preserve, limit⟩ .data [] (Node.markups [] children ++ []) []
      children := Node.restoresAll rfl children (by simp) h rfl (Or.inl rfl)
  obtain ⟨r, hreads, hnodes, hclean, _⟩ := hrestores
    (Cursor.start (String.ofList (Node.markups [] children)).toList)
    (by simp [Cursor.start])
  obtain ⟨hroot, hdiagnostics⟩ := Template.read_of_reads hreads
  exact ⟨hdiagnostics.trans hclean,
    by rw [Node.markup, hroot]; simp [Node.unplaced, hnodes]⟩

/-- Elements of every text mode, with texts and values that look like markup
up to the last character. -/
theorem Template.read_markup_mixed :
    let children : List Node :=
      [.text "a \x7d \x7bb" ⟨0, 0⟩ none,
        .interpolation "\x7bx\x7dy" ⟨0, 0⟩ none,
        .element "d<v" [⟨"v-on:a<", "x > '1' /", ⟨0, 0⟩⟩]
          [.comment "-- >--" ⟨0, 0⟩ none,
            .element "TextArea" []
              [.text "-->" ⟨0, 0⟩ none, .interpolation "" ⟨0, 0⟩ none]
              false ⟨0, 0⟩ none,
            .element "script" [] [.text "if \x7b\x7b" ⟨0, 0⟩ none]
              false ⟨0, 0⟩ none,
            .element "br" [⟨"\"", "", ⟨0, 0⟩⟩] [] true ⟨0, 0⟩ none]
          false ⟨0, 0⟩ none]
    let tree := Node.root children ⟨0, 0⟩ none
    let t := Template.read ⟨.preserve, 2⟩ (String.ofList (tree.markup []))
    Node.wellFormedAll 2 .data 0 children = true ∧
      t.diagnostics = [] ∧ t.root.unplaced = tree.unplaced :=
  ⟨by decide, Template.read_markup 2 _ ⟨0, 0⟩ (by decide)⟩

end MarkupTemplate
