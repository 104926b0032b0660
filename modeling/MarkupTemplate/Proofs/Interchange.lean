/-
The ordinary rules may be listed in any order and more than once, and they may
run in one pass or in one pass each.  A list of them gives the nodes of some
kinds their expressions, and which nodes carry one by then decides whether two
passes can be made into one.  Expressions from an earlier pass are made anew.
-/
import MarkupTemplate.Proofs.Attachment

namespace MarkupTemplate

namespace Node

@[simp] theorem withExpr_withChildren_self (o : RenderOptions) (node : Node)
    (nodes : List Node) :
    ((node.withChildren nodes).withExpr o).withChildren nodes =
      (node.withChildren nodes).withExpr o := by
  cases node <;> rfl

variable {kinds first later : Kind → Bool} {o : RenderOptions}

@[simp] theorem kind_withExprOf (node : Node) :
    (node.withExprOf kinds o).kind = node.kind := by
  unfold withExprOf
  split <;> simp

@[simp] theorem children_withExprOf (node : Node) :
    (node.withExprOf kinds o).children = node.children := by
  unfold withExprOf
  split <;> simp

@[simp] theorem kind_attachedTo (node : Node) :
    (node.attachedTo kinds o).kind = node.kind := by
  rw [attachedTo_eq, kind_withExprOf, kind_withChildren]

@[simp] theorem children_attachedTo (node : Node) :
    (node.attachedTo kinds o).children =
      node.children.map (attachedTo kinds o) := by
  rw [attachedTo_eq, children_withExprOf, children_withChildren_map]

theorem height_attachedTo (node : Node) :
    (node.attachedTo kinds o).height = node.height := by
  induction node using inductionOn with
  | step node ih =>
      rw [height_eq, height_eq, children_attachedTo, heights_map ih]

/-- The kinds that a tree does not have do not matter. -/
theorem attachedTo_congr (node : Node)
    (h : ∀ below ∈ node.nodes, first below.kind = later below.kind) :
    node.attachedTo first o = node.attachedTo later o := by
  induction node using inductionOn with
  | step node ih =>
      have hchildren : node.children.map (attachedTo first o) =
          node.children.map (attachedTo later o) := by
        apply List.map_congr_left
        intro child hchild
        exact ih child hchild fun below hbelow =>
          h below (mem_nodes_of_child hchild hbelow)
      rw [attachedTo_eq, attachedTo_eq, hchildren, withExprOf, withExprOf,
        kind_withChildren, h node node.mem_nodes_self]

/-- Two passes are one, unless something that the first gives an expression
stands above something that gets its own only from the second. -/
theorem attachedTo_attachedTo (node : Node)
    (h : ∀ upper ∈ node.nodes, first upper.kind = true →
      ∀ child ∈ upper.children, ∀ below ∈ child.nodes,
        later below.kind = false) :
    (node.attachedTo first o).attachedTo later o =
      node.attachedTo (fun kind => first kind || later kind) o := by
  induction node using inductionOn with
  | step node ih =>
      have hchildren :
          (node.attachedTo first o).children.map (attachedTo later o) =
          node.children.map
            (attachedTo (fun kind => first kind || later kind) o) := by
        rw [children_attachedTo, List.map_map]
        apply List.map_congr_left
        intro child hchild
        exact ih child hchild fun upper hupper =>
          h upper (mem_nodes_of_child hchild hupper)
      rw [attachedTo_eq, hchildren, attachedTo_eq node, attachedTo_eq node]
      by_cases hlater : later node.kind = true
      · -- the second pass makes the expression of the node anew
        by_cases hfirst : first node.kind = true <;>
          simp [withExprOf, hlater, hfirst]
      · by_cases hfirst : first node.kind = true
        · -- nothing below the node waits for the second pass
          have hsame : node.children.map (attachedTo first o) =
              node.children.map
                (attachedTo (fun kind => first kind || later kind) o) := by
            apply List.map_congr_left
            intro child hchild
            apply attachedTo_congr
            intro below hbelow
            rw [h node node.mem_nodes_self hfirst child hchild below hbelow,
              Bool.or_false]
          simp [withExprOf, hlater, hfirst, ← hsame]
        · simp [withExprOf, hlater, hfirst]

/-- A pass leaves nothing of an earlier one that gave expressions to no other
kinds. -/
theorem attachedTo_of_attachedTo {earlier : RenderOptions} (node : Node)
    (h : ∀ kind, first kind = true → later kind = true) :
    (node.attachedTo first earlier).attachedTo later o =
      node.attachedTo later o := by
  induction node using inductionOn with
  | step node ih =>
      have hchildren : (node.attachedTo first earlier).children.map
          (attachedTo later o) =
          node.children.map (attachedTo later o) := by
        rw [children_attachedTo, List.map_map]
        exact List.map_congr_left ih
      rw [attachedTo_eq, hchildren, attachedTo_eq node, attachedTo_eq node]
      by_cases hfirst : first node.kind = true
      · -- the node gets its expression again, from children that have got
        -- theirs again
        simp [withExprOf, hfirst, h node.kind hfirst]
      · simp [withExprOf, hfirst]

end Node

namespace Rule

variable {o : RenderOptions}

theorem Attaches.attachTo {rule : Rule} {kind : Kind}
    (hrule : rule.Attaches kind) : AttachTo (· == kind) [rule] := by
  constructor
  · intro r hr
    rw [List.mem_singleton.mp hr]
    exact ⟨kind, beq_self_eq_true kind, hrule⟩
  · intro k hk
    rw [eq_of_beq hk]
    exact ⟨rule, List.mem_singleton_self rule, hrule⟩

theorem attachExprs_ordinary {tree : Node} (htree : tree.kind = .root) :
    (attachExprs o tree).root = tree.attachedTo ordinary o := by
  rw [(attachExprs_of_root o htree).2, Node.attachedTo_ordinary]

/-- Giving expressions to the text first, then to the elements and then to the
top is giving them all at once, if no root stands below an element. -/
theorem attachedTo_in_turn {tree : Node}
    (hbelow : ∀ node ∈ tree.children.flatMap Node.nodes, node.kind ≠ .root) :
    ((tree.attachedTo (· == .text) o).attachedTo (· == .element) o).attachedTo
      (· == .root) o =
      tree.attachedTo ordinary o := by
  have htext : (tree.attachedTo (· == .text) o).attachedTo (· == .element) o =
      tree.attachedTo (fun kind => kind == .text || kind == .element) o := by
    apply Node.attachedTo_attachedTo
    intro upper _ hkind child hchild
    cases upper <;> simp_all [Node.kind, Node.children]
  rw [htext, Node.attachedTo_attachedTo]
  · rfl
  · intro upper hupper _ child hchild below hmem
    exact beq_false_of_ne (hbelow below (Node.mem_below hupper hchild hmem))

/-- The ordinary rules give a root the same tree in any order and with any
repetitions, and without roots below the top also in three passes of one rule
each. -/
theorem rewrite_interchange (limit : Nat) (o : RenderOptions) (tree : Node)
    (htree : tree.kind = .root) (hlimit : tree.height ≤ limit) :
    (∀ rules : List Rule, rules ⊆ defaults → defaults ⊆ rules →
      let pass := rewrite limit o rules tree
      pass.verdict = .kept ∧ pass.root = (attachExprs o tree).root) ∧
    ((∀ node ∈ tree.children.flatMap Node.nodes, node.kind ≠ .root) →
      let texts := rewrite limit o [text] tree
      let elements := rewrite limit o [element] texts.root
      let whole := rewrite limit o [root] elements.root
      texts.verdict = .kept ∧ elements.verdict = .kept ∧ whole.verdict = .kept ∧
        whole.root = (attachExprs o tree).root) := by
  rw [attachExprs_ordinary htree]
  constructor
  · intro rules hrules hall
    exact rewrite_attachedTo (attachTo_ordinary hrules hall) htree hlimit
  · intro hbelow texts elements whole
    obtain ⟨htexts, hfirst⟩ : texts.verdict = .kept ∧
        texts.root = tree.attachedTo (· == .text) o :=
      rewrite_attachedTo text_attaches.attachTo htree hlimit
    obtain ⟨helements, hsecond⟩ : elements.verdict = .kept ∧
        elements.root = texts.root.attachedTo (· == .element) o := by
      apply rewrite_attachedTo element_attaches.attachTo
      · rw [hfirst, Node.kind_attachedTo, htree]
      · rwa [hfirst, Node.height_attachedTo]
    obtain ⟨hwhole, hthird⟩ : whole.verdict = .kept ∧
        whole.root = elements.root.attachedTo (· == .root) o := by
      apply rewrite_attachedTo root_attaches.attachTo
      · rw [hsecond, hfirst, Node.kind_attachedTo, Node.kind_attachedTo, htree]
      · rwa [hsecond, hfirst, Node.height_attachedTo, Node.height_attachedTo]
    refine ⟨htexts, helements, hwhole, ?_⟩
    rw [hthird, hsecond, hfirst, attachedTo_in_turn hbelow]

/-- An element below an element, text at both levels and an expression from
before: two lists of rules and the three passes agree. -/
theorem rewrite_interchange_nested :
    let zero : Span := ⟨0, 0⟩
    let inner :=
      Node.element "b" [] [.text "x" zero none] false zero
        (some (.string "old"))
    let tree :=
      Node.root [.element "p" [] [inner, .text "y" zero none] false zero none]
        zero none
    let backwards := rewrite 5 {} [root, element, text, element] tree
    let whole := rewrite 4 {} [root]
      (rewrite 4 {} [element] (rewrite 4 {} [text] tree).root).root
    tree.height = 4 ∧ backwards.verdict = .kept ∧ whole.verdict = .kept ∧
      backwards.root = (attachExprs {} tree).root ∧
      whole.root = (attachExprs {} tree).root := by
  intro zero inner tree backwards whole
  have hheight : tree.height = 4 := by decide
  have hlisted : [root, element, text, element] ⊆ defaults ∧
      defaults ⊆ [root, element, text, element] := by
    constructor <;> simp [defaults]
  have hbackwards :=
    (rewrite_interchange 5 {} tree rfl (by omega)).1 _ hlisted.1 hlisted.2
  have hbelow : ∀ node ∈ tree.children.flatMap Node.nodes,
      node.kind ≠ .root := by decide
  have hwhole :=
    (rewrite_interchange 4 {} tree rfl (Nat.le_of_eq hheight)).2 hbelow
  exact ⟨hheight, hbackwards.1, hwhole.2.2.1, hbackwards.2, hwhole.2.2.2⟩

/-- A second pass with other options leaves the tree that it makes without the
first one, so a pass with the same options again changes nothing. -/
theorem attachExprs_attachExprs (first later : RenderOptions)
    (children : List Node) (span : Span) (expr : Option Expr) :
    let tree := Node.root children span expr
    let once := attachExprs first tree
    let twice := attachExprs later once.root
    once.verdict = .kept ∧ twice.verdict = .kept ∧
      twice.root = (attachExprs later tree).root ∧
      (attachExprs first once.root).root = once.root := by
  intro tree once twice
  have honce : once.root = tree.attachedTo ordinary first :=
    attachExprs_ordinary rfl
  have hkind : once.root.kind = .root := by
    rw [honce, Node.kind_attachedTo]
    rfl
  have hagain (o : RenderOptions) :
      (attachExprs o once.root).root = (attachExprs o tree).root := by
    calc
      (attachExprs o once.root).root = once.root.attachedTo ordinary o :=
        attachExprs_ordinary hkind
      _ = tree.attachedTo ordinary o := by
        rw [honce, Node.attachedTo_of_attachedTo tree fun _ => id]
      _ = (attachExprs o tree).root := (attachExprs_ordinary rfl).symm
  exact ⟨(attachExprs_of_root first rfl).1,
    (attachExprs_of_root later hkind).1, hagain later, hagain first⟩

end Rule

end MarkupTemplate
