/-
Reading a template with its white space condensed and with its white space
preserved.  The two readings pass the same places and find the same problems;
their trees differ in texts alone, and only in texts that stand in ordinary
content outside CDATA sections.
-/
import MarkupTemplate.Proofs.Reads

namespace MarkupTemplate

/-- What a text becomes when its white space is condensed: the same stretch of
the source with other characters, or nothing. -/
def Node.condensedText (content : String) (span : Span)
    (expr : Option Expr) : List Node :=
  (condense content.toList).toList.map fun short =>
    .text (String.ofList short) span expr

/-- Siblings, and what they are when white space is condensed.  Texts in
ordinary content are condensed, unless they are taken `asItStands`; all other
texts stay as they are, and so do comments and interpolations.  Elements differ
in what they hold. -/
inductive Condensed (asItStands : Node → Prop) :
    TextMode → List Node → List Node → Prop where
  | nil {mode : TextMode} : Condensed asItStands mode [] []
  | leaf {mode : TextMode} {node : Node} {nodes shorts : List Node}
      (hkind : node.kind = .comment ∨ node.kind = .interpolation)
      (hlater : Condensed asItStands mode nodes shorts) :
      Condensed asItStands mode (node :: nodes) (node :: shorts)
  | text {content : String} {span : Span} {expr : Option Expr}
      {nodes shorts : List Node}
      (hlater : Condensed asItStands .data nodes shorts) :
      Condensed asItStands .data (.text content span expr :: nodes)
        (Node.condensedText content span expr ++ shorts)
  | verbatim {mode : TextMode} {content : String} {span : Span}
      {expr : Option Expr} {nodes shorts : List Node}
      (hmode : mode = .data → asItStands (.text content span expr))
      (hlater : Condensed asItStands mode nodes shorts) :
      Condensed asItStands mode (.text content span expr :: nodes)
        (.text content span expr :: shorts)
  | element {mode : TextMode} {tag : String} {attributes : List Attribute}
      {children shortened : List Node} {selfClosing : Bool} {span : Span}
      {expr : Option Expr} {nodes shorts : List Node}
      (hinside : Condensed asItStands (TextMode.ofTag tag) children shortened)
      (hlater : Condensed asItStands mode nodes shorts) :
      Condensed asItStands mode
        (.element tag attributes children selfClosing span expr :: nodes)
        (.element tag attributes shortened selfClosing span expr :: shorts)

namespace Condensed

variable {P Q : Node → Prop} {mode : TextMode}
  {nodes shorts later laterShorts : List Node}

theorem append (hfirst : Condensed P mode nodes shorts)
    (hlater : Condensed P mode later laterShorts) :
    Condensed P mode (nodes ++ later) (shorts ++ laterShorts) := by
  induction hfirst with
  | nil => exact hlater
  | leaf hkind _ ih => exact .leaf hkind (ih hlater)
  | text _ ih =>
      rw [List.append_assoc]
      exact .text (ih hlater)
  | verbatim hmode _ ih => exact .verbatim hmode (ih hlater)
  | element hinside _ _ ih => exact .element hinside (ih hlater)

theorem mono (h : Condensed P mode nodes shorts)
    (hPQ : ∀ node, P node → Q node) : Condensed Q mode nodes shorts := by
  induction h with
  | nil => exact .nil
  | leaf hkind _ ih => exact .leaf hkind ih
  | text _ ih => exact .text ih
  | verbatim hmode _ ih => exact .verbatim (fun hdata => hPQ _ (hmode hdata)) ih
  | element _ _ ihinside ih => exact .element ihinside ih

end Condensed

/-- Two readings from one place that go on at one place and note the same. -/
structure Siblings.CondensesTo (asItStands : Node → Prop) (mode : TextMode)
    (plain short : Siblings) : Prop where
  nodes : Condensed asItStands mode plain.nodes short.nodes
  notes : short.notes = plain.notes
  next : short.next = plain.next

namespace Siblings.CondensesTo

variable {P : Node → Prop} {mode : TextMode}
  {plain short later laterShort : Siblings}

theorem refl_of_leaves {item : Siblings}
    (hkind : ∀ node ∈ item.nodes, node.kind = .comment ∨
      node.kind = .interpolation) :
    item.CondensesTo P mode item := by
  refine ⟨?_, rfl, rfl⟩
  generalize item.nodes = nodes at hkind
  induction nodes with
  | nil => exact .nil
  | cons node nodes ih =>
      exact .leaf (hkind node List.mem_cons_self)
        (ih fun n hn => hkind n (List.mem_cons_of_mem _ hn))

theorem followedBy (hfirst : plain.CondensesTo P mode short)
    (hlater : later.CondensesTo P mode laterShort) :
    (plain.followedBy later).CondensesTo P mode
      (short.followedBy laterShort) := by
  refine ⟨hfirst.nodes.append hlater.nodes, ?_, hlater.next⟩
  simp only [Siblings.followedBy, hfirst.notes, hlater.notes]

end Siblings.CondensesTo

namespace StartTag

variable {P : Node → Prop} {mode : TextMode} (tag : StartTag)

theorem condensesTo_alone (start : Cursor) (problems : List Diagnostic) :
    (tag.alone start problems).CondensesTo P mode (tag.alone start problems) :=
  ⟨.element .nil .nil, rfl, rfl⟩

theorem condensesTo_around (start : Cursor) {inside short : Siblings}
    (h : inside.CondensesTo P (TextMode.ofTag tag.name) short) :
    (tag.around start inside).CondensesTo P mode (tag.around start short) := by
  refine ⟨?_, ?_, ?_⟩
  · simp only [around, h.next]
    exact .element h.nodes .nil
  · simp only [around, h.next, h.notes]
  · simp only [around, h.next]

end StartTag

/-- White space decides nothing about a leaf but the characters of a text. -/
theorem Leaf.condensesTo {P : Node → Prop} {limit : Nat}
    {mode : TextMode} {c : Cursor} {item : Siblings}
    (h : Leaf ⟨.preserve, limit⟩ mode c item)
    (hcdata : "<![CDATA[".toList <+: c.rest →
      ∀ node ∈ (Siblings.cdata c).nodes, P node) :
    ∃ short, Leaf ⟨.condense, limit⟩ mode c short ∧
      item.CondensesTo P mode short := by
  cases h with
  | comment hmode hopening =>
      exact ⟨_, .comment hmode hopening,
        .refl_of_leaves (by simp [Siblings.comment, Node.kind])⟩
  | interpolation hmode hopening =>
      exact ⟨_, .interpolation hmode hopening,
        .refl_of_leaves (by simp [Siblings.interpolation, Node.kind])⟩
  | unmatched hmode hend =>
      exact ⟨_, .unmatched hmode hend,
        .refl_of_leaves (by simp [Siblings.unmatched])⟩
  | cdata hmode hopening =>
      refine ⟨_, .cdata hmode hopening, ?_, rfl, rfl⟩
      have hnodes := hcdata hopening
      simp only [Siblings.cdata] at hnodes ⊢
      split at hnodes
      · next hempty =>
          simp only [hempty, if_true]
          exact .nil
      · next hempty =>
          simp only [hempty]
          exact .verbatim (fun _ => hnodes _ (List.mem_singleton_self _)) .nil
  | text hne hmarkup hinline =>
      refine ⟨_, .text hne hmarkup hinline, ?_, rfl, rfl⟩
      by_cases hmode : mode = .data
      · subst hmode
        let run := Siblings.textRun .data c.rest
        let span := c.spanTo (c.advance run)
        have hshort : Condensed P .data [.text (String.ofList run) span none]
            (Node.condensedText (String.ofList run) span none ++ []) :=
              .text .nil
        simpa [Siblings.text, Node.condensedText, run, span] using hshort
      · simp only [Siblings.text, hmode, false_and, if_false]
        exact .verbatim (fun hdata => absurd hdata hmode) .nil

/-- The two readings go side by side.  `b` is a place in front of both. -/
theorem Reads.condensesTo {P : Node → Prop} {limit : Nat} {mode : TextMode}
    {opened : List String} {b c : Cursor} {r : Siblings}
    (h : Reads ⟨.preserve, limit⟩ mode opened c r) (hbegins : b.Leads c)
    (hcdata : ∀ d : Cursor, b.Leads d → "<![CDATA[".toList <+: d.rest →
      ∀ node ∈ (Siblings.cdata d).nodes, P node) :
    ∃ short, Reads ⟨.condense, limit⟩ mode opened c short ∧
      r.CondensesTo P mode short := by
  induction h with
  | ends hend => exact ⟨_, .ends hend, .nil, rfl, rfl⟩
  | leaf hgoes hleaf _ ih =>
      obtain ⟨first, hfirst, hshort⟩ := hleaf.condensesTo (hcdata _ hbegins)
      obtain ⟨later, hlater, hlaterShort⟩ := ih (hbegins.trans hleaf.leads)
      rw [← hshort.next] at hlater
      exact ⟨_, .leaf hgoes hfirst hlater, hshort.followedBy hlaterShort⟩
  | @alone _ c tag _ hgoes htag hending _ ih =>
      obtain ⟨later, hlater, hlaterShort⟩ :=
        ih (hbegins.trans (StartTag.read?_leads htag))
      exact ⟨_, .alone hgoes htag hending hlater,
        (tag.condensesTo_alone c []).followedBy hlaterShort⟩
  | @tooDeep _ c tag _ hgoes htag hending hdeep _ ih =>
      obtain ⟨later, hlater, hlaterShort⟩ :=
        ih (hbegins.trans (StartTag.read?_leads htag))
      exact ⟨_, .tooDeep hgoes htag hending hdeep hlater,
        (tag.condensesTo_alone c _).followedBy hlaterShort⟩
  | @element _ c tag inside _ hgoes htag hending hroom hinside _ ihinside ih =>
      have hcontent := hbegins.trans (StartTag.read?_leads htag)
      obtain ⟨short, hshort, hcondensed⟩ := ihinside hcontent
      obtain ⟨later, hlater, hlaterShort⟩ :=
        ih (hcontent.trans (hinside.leads.trans (tag.close_leads inside.next)))
      rw [← hcondensed.next] at hlater
      exact ⟨_, .element hgoes htag hending hroom hshort hlater,
        (tag.condensesTo_around c hcondensed).followedBy hlaterShort⟩

/-- A node that begins right behind the opening marker of a CDATA section. -/
def Node.OpensCdata (source : String) (node : Node) : Prop :=
  ∃ front back, source.toList = front ++ "<![CDATA[".toList ++ back ∧
    node.span.start = byteLength (front ++ "<![CDATA[".toList)

theorem Siblings.opensCdata_nodes {source : String} {c : Cursor}
    (hbegins : (Cursor.start source.toList).Leads c)
    (hopening : "<![CDATA[".toList <+: c.rest) :
    ∀ node ∈ (Siblings.cdata c).nodes, node.OpensCdata source := by
  intro node hnode
  obtain ⟨front, hfront, hoffset⟩ := hbegins
  obtain ⟨back, hback⟩ := hopening
  refine ⟨front, back, ?_, ?_⟩
  · rw [List.append_assoc, hback]
    exact hfront
  · simp only [Siblings.cdata] at hnode
    split at hnode
    · simp at hnode
    · rw [List.mem_singleton.mp hnode, byteLength_append]
      simp [Node.span, Cursor.spanTo, hoffset, Cursor.start]

/-- Condensing white space changes texts alone.  The same problems are found,
and the trees differ only in texts of ordinary content, which are condensed
unless they begin right behind the opening marker of a CDATA section.  So all of
them are condensed if the source has no such marker. -/
theorem Template.read_condense (limit : Nat) (source : String) :
    let plain := Template.read ⟨.preserve, limit⟩ source
    let short := Template.read ⟨.condense, limit⟩ source
    short.diagnostics = plain.diagnostics ∧
      short.root = plain.root.withChildren short.root.children ∧
      Condensed (Node.OpensCdata source) .data plain.root.children
        short.root.children ∧
      (¬ "<![CDATA[".toList <:+: source.toList →
        Condensed (fun _ => False) .data plain.root.children
          short.root.children) := by
  intro plain short
  have hreads :=
    siblings_reads ⟨.preserve, limit⟩ .data [] (Cursor.start source.toList)
  obtain ⟨hplain, hproblems⟩ := Template.read_of_reads hreads
  obtain ⟨r, hshort, hcondensed⟩ :=
    hreads.condensesTo (Cursor.Leads.refl _) fun _ => Siblings.opensCdata_nodes
  obtain ⟨hroot, hdiagnostics⟩ := Template.read_of_reads hshort
  rw [show plain.root = _ from hplain, show short.root = _ from hroot,
    show short.diagnostics = _ from hdiagnostics,
        show plain.diagnostics = _ from hproblems]
  refine ⟨?_, rfl, hcondensed.nodes, fun hnone => hcondensed.nodes.mono ?_⟩
  · rw [Siblings.diagnostics, Siblings.diagnostics, hcondensed.notes]
  · rintro node ⟨front, back, hsource, _⟩
    exact hnone ⟨front, back, hsource.symm⟩

/-- Of three texts one is condensed, one disappears and one is no ordinary
content. -/
theorem Template.read_condense_title :
    let source := "<p>a \n b</p>\n<title>a  b</title>"
    let plain := Template.read ⟨.preserve, 1⟩ source
    let short := Template.read ⟨.condense, 1⟩ source
    ¬ "<![CDATA[".toList <:+: source.toList ∧
      Condensed (fun _ => False) .data plain.root.children short.root.children ∧
      plain.root.outline =
        "Root\n--Element: p\n----Text: a \n b\n--Text: \n\n" ++
          "--Element: title\n----Text: a  b\n" ∧
      short.root.outline =
        "Root\n--Element: p\n----Text: a b\n" ++
          "--Element: title\n----Text: a  b\n" := by
  intro source plain short
  have hnone : ¬ "<![CDATA[".toList <:+: source.toList := by decide +kernel
  exact ⟨hnone, (Template.read_condense 1 source).2.2.2 hnone,
    by decide +kernel, by decide +kernel⟩

end MarkupTemplate
