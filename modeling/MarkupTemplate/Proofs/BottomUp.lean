/-
Edits on leaving are a rewriting from the bottom up.  A rule that puts something
in the place of every node it leaves, or removes it, finds below each node what
it has made of the nodes that were there.  Nothing that it puts in place is met
again, however large it is, so the pass goes no deeper than the tree it began
with.
-/
import MarkupTemplate.Proofs.Fusion
import MarkupTemplate.Proofs.Tree

namespace MarkupTemplate

/-- Ask for the edit of a node that is left: for what `g` makes of it, or for
its removal if that is nothing. -/
def editOnLeaving (g : Node → Option Node) : ExitAction := fun _ node ctx =>
  let request := match g node with
    | some edited => Request.replace edited
    | none => .remove
  ⟨node, [.ask request], (ctx.ask request).map fun _ => ()⟩

/-- The rule that edits every node but the top when it is left. -/
def Rule.onLeaving (g : Node → Option Node) : Rule where
  enter _ node ctx :=
    ⟨node, [], .ok (if ctx.parent.isSome then some (editOnLeaving g) else none)⟩

namespace Node

mutual

/-- Rewrite a tree from the bottom up: a node is given its rewritten children,
without those that are dropped, and then `g` makes something of it or drops
it. -/
def bottomUp (g : Node → Option Node) : Node → Option Node
  | root children span expr => g (root (bottomUpAll g children) span expr)
  | element tag attributes children selfClosing span expr =>
      g (element tag attributes (bottomUpAll g children) selfClosing span expr)
  | leaf => g leaf

def bottomUpAll (g : Node → Option Node) : List Node → List Node
  | [] => []
  | node :: nodes => (bottomUp g node).toList ++ bottomUpAll g nodes

end

theorem bottomUpAll_eq_filterMap (g : Node → Option Node) (nodes : List Node) :
    bottomUpAll g nodes = nodes.filterMap (bottomUp g) := by
  induction nodes with
  | nil => rfl
  | cons node nodes ih =>
      rw [bottomUpAll, ih]
      cases h : bottomUp g node with
      | none => simp [List.filterMap_cons_none h]
      | some edited => simp [List.filterMap_cons_some h]

theorem bottomUp_eq (g : Node → Option Node) (node : Node) :
    node.bottomUp g =
      g (node.withChildren (node.children.filterMap (bottomUp g))) := by
  cases node with
  | root =>
      simp only [bottomUp, withChildren, children, bottomUpAll_eq_filterMap]
  | element =>
      simp only [bottomUp, withChildren, children, bottomUpAll_eq_filterMap]
  | _ => rfl

end Node

section

variable {g : Node → Option Node} {o : RenderOptions} {node : Node}
  {ctx : Context}

/-- On arrival nothing happens. -/
theorem Rule.enterRules_onLeaving (g : Node → Option Node) (past : List Entry)
    (node : Node) (hpending : ctx.pending = none) :
    enterRules 0 [Rule.onLeaving g] past node ctx =
      (⟨node, ctx, [.invoked .enter 0 node ctx], .kept⟩,
        if ctx.parent.isSome then [(0, editOnLeaving g)] else []) := by
  rw [enterRules_cons_of_reply hpending rfl rfl]
  by_cases hparent : ctx.parent.isSome <;>
    simp [enterRules, Visit.after, hparent]

/-- Below the top the edit is made. -/
theorem runExits_editOnLeaving (g : Node → Option Node) (past : List Entry)
    (node : Node) (hparent : ctx.parent.isSome = true)
    (hcurrent : ctx.current.isSome = true) (hoptions : ctx.options = o) :
    (runExits [(0, editOnLeaving g)] past node ctx).Leaves o (g node) := by
  have hask := Context.ask_of_isSome hparent hcurrent
  cases h : g node with
  | none =>
      have haction : editOnLeaving g past node ctx =
          ⟨node, [.ask .remove], .ok ()⟩ := by
        simp [editOnLeaving, h, hask, Except.map]
      rw [runExits, haction, Reply.settle_remove hparent hcurrent]
      exact ⟨.inr rfl, rfl, rfl, hoptions⟩
  | some edited =>
      have haction : editOnLeaving g past node ctx =
          ⟨node, [.ask (.replace edited)], .ok ()⟩ := by
        simp [editOnLeaving, h, hask, Except.map]
      rw [runExits, haction, Reply.settle_replace hparent hcurrent]
      exact ⟨.inl rfl, rfl, rfl, hoptions⟩

/-- Visits of a tree below the top, at most `limit` levels deep, rewrite it from
the bottom up, and on arrival they meet its nodes. -/
def Node.IsRewritten (g : Node → Option Node) (o : RenderOptions) (limit : Nat)
    (node : Node) : Prop :=
  ∀ past (ctx : Context), ctx.parent.isSome = true → ctx.pending = none →
    ctx.options = o → (visit [Rule.onLeaving g] limit past node ctx).Gives o
      (node.bottomUp g) (node.nodes.map (0, ·))

/-- A visit comes back to its node, and there it finds below the node what the
visits below have made of the nodes that were there.  What its exit action puts
in place is not met. -/
theorem exists_visit_onLeaving {limit : Nat} (hpending : ctx.pending = none)
    (hoptions : ctx.options = o)
    (hone : ∀ child ∈ node.children, child.IsRewritten g o limit)
    (past : List Entry) :
    (visit [Rule.onLeaving g] (limit + 1) past node ctx).journal.filterMap
        Entry.arrival? = node.nodes.map (0, ·) ∧
      ∃ journal later back, back.parent = ctx.parent ∧
        back.current = some node.kind ∧ back.options = o ∧
        visit [Rule.onLeaving g] (limit + 1) past node ctx =
          (runExits (if ctx.parent.isSome then [(0, editOnLeaving g)] else [])
            later (node.withChildren
              (node.children.filterMap (Node.bottomUp g)))
            back).after journal := by
  let here : Context := { ctx with current := some node.kind }
  let arrival := Entry.visited node.kind ctx.depth ctx.childIndex
  have hhere : here.pending = none := hpending
  have henter := Rule.enterRules_onLeaving g (arrival :: past) node hhere
  have hbelow := visitAll_gives hone node.kind 0
    (.invoked .enter 0 node here :: arrival :: past) hhere hoptions
  generalize hvisits : visitAll _ _ _ _ _ here = below at hbelow
  constructor
  · rw [visit_arrivals henter rfl hvisits hbelow.verdict, hbelow.calls,
      node.nodes_eq, List.map_cons, List.map_flatMap]
    rfl
  · have hvisit := visit_eq_of_kept henter rfl hvisits hbelow.verdict
    have hreversed : (if here.parent.isSome then [(0, editOnLeaving g)]
        else []).reverse =
          if ctx.parent.isSome then [(0, editOnLeaving g)] else [] := by
      split <;> rfl
    rw [hbelow.nodes, hreversed] at hvisit
    exact ⟨_, _, { below.context with
      parent := ctx.parent
      childIndex := ctx.childIndex
      current := some node.kind }, rfl, rfl, hbelow.options, hvisit⟩

theorem Node.isRewritten {limit : Nat} (hlimit : node.height ≤ limit) :
    node.IsRewritten g o limit := by
  induction limit generalizing node with
  | zero =>
      have hpos := node.heights_children_lt
      omega
  | succ limit ih =>
      intro past ctx hparent hpending hoptions
      have hone : ∀ child ∈ node.children, child.IsRewritten g o limit := by
        intro child hchild
        have hheight := Node.height_le_of_mem hchild
        have hbelow := node.heights_children_lt
        exact ih (by omega)
      obtain ⟨hcalls, journal, later, back, hback, hcurrent,
          hoptions, hvisit⟩ :=
        exists_visit_onLeaving hpending hoptions hone past
      have hexits := runExits_editOnLeaving g later
        (node.withChildren (node.children.filterMap (Node.bottomUp g)))
        (show back.parent.isSome = true by rw [hback, hparent])
        (by simp [hcurrent]) hoptions
      refine ⟨?_, hcalls⟩
      rw [hvisit, if_pos hparent, node.bottomUp_eq]
      exact ⟨hexits.completes, hexits.left, hexits.pending, hexits.options⟩

end

/-- A pass that edits every node but the top on leaving ends, succeeds, and
leaves the tree that is rewritten from the bottom up.  On arrival the rule is
handed the nodes of the tree that the pass began with, each once, and no others,
whatever is put in place. -/
theorem Rule.rewrite_onLeaving (g : Node → Option Node)
    (o : RenderOptions) (limit : Nat) (children : List Node) (span : Span)
    (expr : Option Expr)
    (hlimit : (Node.root children span expr).height ≤ limit) :
    let root := Node.root children span expr
    let pass := rewrite limit o [Rule.onLeaving g] root
    pass.verdict = .kept ∧
      pass.root = .root (children.filterMap (Node.bottomUp g)) span expr ∧
      pass.journal.filterMap Entry.arrival? = root.nodes.map (0, ·) := by
  intro root pass
  have hheight : root.height ≤ limit := hlimit
  have hbelow := root.heights_children_lt
  obtain ⟨less, rfl⟩ : ∃ less, limit = less + 1 := ⟨limit - 1, by omega⟩
  have hone : ∀ child ∈ root.children, child.IsRewritten g o less := by
    intro child hchild
    have hchild := Node.height_le_of_mem hchild
    exact Node.isRewritten (by omega)
  let start : Context := { ruleCount := 1, options := o }
  have hstart : start.pending = none := rfl
  obtain ⟨hcalls, journal, later, back, _, _, _, hvisit⟩ :=
    exists_visit_onLeaving hstart rfl hone []
  have hpass : pass = _ :=
    rewrite_eq_of_kept (show root.kind = .root from rfl) hvisit rfl
  rw [hpass]
  refine ⟨rfl, rfl, ?_⟩
  rw [List.filterMap_append, ← hvisit, hcalls]
  simp [Entry.arrival?]

/-- Comments are dropped, and around every element another one is put. -/
def Node.boxed : Node → Option Node
  | comment .. => none
  | element tag attributes children selfClosing span expr =>
      some ((element tag attributes children selfClosing span expr).wrap "box")
  | node => some node

/-- The boxes are elements too, and none of them is put in a box. -/
theorem Rule.rewrite_onLeaving_boxed :
    let zero : Span := ⟨0, 0⟩
    let inner := Node.element "b" [] [] false zero none
    let list :=
      Node.element "p" [] [.comment "c" zero none, inner] false zero none
    let children := [.comment "a" zero none, list, .text "d" zero none]
    let pass :=
      rewrite 3 {} [Rule.onLeaving Node.boxed] (.root children zero none)
    (Node.root children zero none).height ≤ 3 ∧ pass.verdict = .kept ∧
      pass.root =
        .root (children.filterMap (Node.bottomUp Node.boxed)) zero none ∧
      pass.root.outline =
        "Root\n--Element: box\n----Element: p\n------Element: box\n" ++
        "--------Element: b\n--Text: d\n" := by
  intro zero inner list children pass
  have hheight : (Node.root children zero none).height ≤ 3 := by decide
  have hpass :=
    Rule.rewrite_onLeaving Node.boxed {} 3 children zero none hheight
  exact ⟨hheight, hpass.1, hpass.2.1, by decide +kernel⟩

end MarkupTemplate
