/-
Edits on arrival fuse with the ordinary rules.  A pass in which one rule puts
other nodes in the place of those it meets, or removes them, in front of the
ordinary rules does what two passes do: first the tree is rewritten from the top
down, and then it gets its expressions.
-/
import MarkupTemplate.Proofs.Attachment

namespace MarkupTemplate

/-- An edit of nodes: what is put in the place of a node, if anything is.  Below
the new node stand nodes that stood below the old one. -/
structure Edit where
  apply : Node → Option Node
  children_mem : ∀ {node edited : Node}, apply node = some edited →
    ∀ child ∈ edited.children, child ∈ node.children

/-- The rule that makes an edit when it meets a node.  The top is left alone. -/
def Edit.rule (e : Edit) : Rule where
  enter _ node ctx :=
    if ctx.parent.isSome then
      let request := match e.apply node with
        | some edited => Request.replace edited
        | none => .remove
      ⟨node, [.ask request], (ctx.ask request).map fun _ => none⟩
    else ⟨node, [], .ok none⟩

namespace Edit

theorem height_lt (e : Edit) {node edited child : Node}
    (h : e.apply node = some edited) (hchild : child ∈ edited.children) :
    child.height < node.height :=
  Nat.lt_of_le_of_lt (Node.height_le_of_mem (e.children_mem h child hchild))
    node.heights_children_lt

/-- Rewrite a tree from the top down: first the node is edited, and then what
stands below the new node. -/
def topDown (e : Edit) (node : Node) : Option Node :=
  match _ : e.apply node with
  | none => none
  | some edited =>
      some (edited.withChildren
        (edited.children.attach.filterMap fun child => e.topDown child.1))
termination_by node.height
decreasing_by exact e.height_lt (by assumption) child.2

/-- The calls of rules on arrival: the rules by their numbers, with the nodes
they are handed.  The edit is handed the old node and the ordinary rules the new
one, and nothing below a node that is removed is met. -/
def arrivals (e : Edit) (node : Node) : List (Nat × Node) :=
  match _ : e.apply node with
  | none => [(0, node)]
  | some edited =>
      (0, node) :: (1, edited) :: (2, edited.withLiteral) ::
        (3, edited.withLiteral) ::
        edited.children.attach.flatMap fun child => e.arrivals child.1
termination_by node.height
decreasing_by exact e.height_lt (by assumption) child.2

variable {e : Edit} {node edited : Node}

theorem topDown_of_none (h : e.apply node = none) : e.topDown node = none := by
  rw [topDown]
  split
  · rfl
  · next hsome => simp [h] at hsome

theorem topDown_of_some (h : e.apply node = some edited) :
    e.topDown node =
      some (edited.withChildren (edited.children.filterMap e.topDown)) := by
  rw [topDown]
  split
  · next hnone => simp [h] at hnone
  · next other hother =>
      obtain rfl : edited = other := by simpa [h] using hother
      simp

theorem arrivals_of_none (h : e.apply node = none) :
    e.arrivals node = [(0, node)] := by
  rw [arrivals]
  split
  · rfl
  · next hsome => simp [h] at hsome

theorem arrivals_of_some (h : e.apply node = some edited) :
    e.arrivals node = (0, node) :: (1, edited) :: (2, edited.withLiteral) ::
      (3, edited.withLiteral) :: edited.children.flatMap e.arrivals := by
  rw [arrivals]
  split
  · next hnone => simp [h] at hnone
  · next other hother =>
      obtain rfl : edited = other := by simpa [h] using hother
      simp

end Edit

def Entry.arrival? : Entry → Option (Nat × Node)
  | .invoked .enter rule node _ => some (rule, node)
  | _ => none

theorem Context.perform_arrivals (ctx : Context) (acts : List Act) :
    (ctx.perform acts).2.filterMap Entry.arrival? = [] := by
  rw [List.filterMap_eq_nil_iff]
  intro entry hentry
  cases entry with
  | invoked phase rule node inner =>
      exact absurd hentry (ctx.perform_not_invoked acts phase rule node inner)
  | _ => rfl

/-- Exit actions are no calls on arrival. -/
theorem runExits_arrivals (exits : List (Nat × ExitAction)) (past : List Entry)
    (node : Node) (ctx : Context) :
    (runExits exits past node ctx).journal.filterMap Entry.arrival? = [] := by
  induction exits generalizing past node ctx with
  | nil => rfl
  | cons exit exits ih =>
      obtain ⟨index, action⟩ := exit
      have hsettled (reply : Reply Unit) (entry : Entry)
          (h : entry.arrival? = none) :
          (reply.settle ctx entry).journal.filterMap Entry.arrival? = [] := by
        rw [reply.journal_settle, List.filterMap_cons_none h,
          ctx.perform_arrivals]
      rw [runExits]
      split
      · rw [Visit.after, List.filterMap_append, ih, hsettled _ _ rfl,
          List.append_nil]
      · exact hsettled _ _ rfl

/-- The calls on arrival in a visit that comes back to its node are those on the
node itself and then those below it. -/
theorem visit_arrivals {rules : List Rule} {limit : Nat} {past : List Entry}
    {node : Node} {ctx : Context} {entered : Visit}
    {exits : List (Nat × ExitAction)} {below : Visits}
    (henter : enterRules 0 rules
      (.visited node.kind ctx.depth ctx.childIndex :: past) node
      { ctx with current := some node.kind } = (entered, exits))
    (hentered : entered.verdict = .kept)
    (hvisits : visitAll (visit rules limit) entered.node.kind 0
      entered.node.children (entered.journal.reverse ++
        .visited node.kind ctx.depth ctx.childIndex :: past)
      entered.context = below)
    (hbelow : below.verdict = .kept) :
    (visit rules (limit + 1) past node ctx).journal.filterMap Entry.arrival? =
      entered.journal.filterMap Entry.arrival? ++
        below.journal.filterMap Entry.arrival? := by
  rw [visit_eq_of_kept henter hentered hvisits hbelow, Visit.after,
    List.filterMap_append, runExits_arrivals, List.append_nil,
    List.filterMap_cons_none rfl, List.filterMap_append]

/-- What the ordinary rules are handed on arrival. -/
theorem Rule.arrivals_defaults (index : Nat) (past : List Entry) (node : Node)
    {ctx : Context} (hpending : ctx.pending = none) :
    (enterRules index defaults past node ctx).1.journal.filterMap
        Entry.arrival? =
      [(index, node), (index + 1, node.withLiteral),
        (index + 2, node.withLiteral)] := by
  have hsettle (node : Node) (value : Option ExitAction) (entry : Entry) :=
    Reply.settle_remarks hpending node [] value entry
  simp only [List.map_nil] at hsettle
  cases node <;>
    simp [enterRules, defaults, text, element, root, hsettle, Visit.after,
      Node.withLiteral, Entry.arrival?]

/-- A visit that ends as a tree function says, and in which the rules are called
on arrival with these nodes. -/
structure Visit.Gives (o : RenderOptions) (result : Option Node)
    (calls : List (Nat × Node)) (v : Visit) : Prop extends
    v.Leaves o result where
  calls : v.journal.filterMap Entry.arrival? = calls

structure Visits.Gives (o : RenderOptions) (results : List Node)
    (calls : List (Nat × Node)) (v : Visits) : Prop extends
    v.Leaves o results where
  calls : v.journal.filterMap Entry.arrival? = calls

theorem visitAll_gives {o : RenderOptions}
    {visitOne : List Entry → Node → Context → Visit}
    {result : Node → Option Node} {calls : Node → List (Nat × Node)}
    {nodes : List Node}
    (hone : ∀ node ∈ nodes, ∀ past (ctx : Context), ctx.parent.isSome = true →
      ctx.pending = none → ctx.options = o →
      (visitOne past node ctx).Gives o (result node) (calls node))
    (parent : Kind) (index : Nat) (past : List Entry) {ctx : Context}
    (hpending : ctx.pending = none) (hoptions : ctx.options = o) :
    (visitAll visitOne parent index nodes past ctx).Gives o
      (nodes.filterMap result) (nodes.flatMap calls) := by
  refine ⟨visitAll_leaves (fun node hnode past ctx hparent hp ho =>
    (hone node hnode past ctx hparent hp ho).toLeaves) parent index past
    hpending hoptions, ?_⟩
  induction nodes generalizing index past ctx with
  | nil => rfl
  | cons node nodes ih =>
      have hfirst := hone node List.mem_cons_self past { ctx with
        parent := some parent, childIndex := index, depth := ctx.depth + 1 }
        rfl hpending hoptions
      generalize hv : visitOne past node _ = v at hfirst
      obtain ⟨next, hall⟩ := visitAll_cons_of_completes hv hfirst.completes
      have hlater := @ih (fun n hn => hone n (List.mem_cons_of_mem _ hn)) next
        (v.journal.reverse ++ past)
        { v.context with depth := v.context.depth - 1 } hfirst.pending
        hfirst.options
      rw [hall, List.filterMap_append, hfirst.calls, hlater,
        List.flatMap_cons]

namespace Edit

variable {e : Edit} {o : RenderOptions} {node edited : Node} {ctx : Context}

def rules (e : Edit) : List Rule := e.rule :: Rule.defaults

def below (e : Edit) (node : Node) : Node :=
  node.withChildren (node.children.filterMap e.topDown)

theorem attached_below (e : Edit) (o : RenderOptions) (node : Node) :
    (e.below node).attached o =
      (node.withChildren (node.children.filterMap fun child =>
        (e.topDown child).map (Node.attached o))).withExprOf
          Rule.ordinary o := by
  have hsame : Node.attachedTo Rule.ordinary o = Node.attached o :=
    funext (Node.attachedTo_ordinary o)
  rw [← hsame, ← List.map_filterMap, Node.attachedTo_eq, below]
  cases node <;> rfl

/-- Below the top the edit asks for its change, which is granted. -/
theorem enter_eq (hparent : ctx.parent.isSome = true)
    (hcurrent : ctx.current.isSome = true) (past : List Entry) :
    e.rule.enter past node ctx =
      ⟨node, [.ask (((e.apply node).map .replace).getD .remove)],
        .ok none⟩ := by
  have hask := Context.ask_of_isSome hparent hcurrent
  cases h : e.apply node <;> simp [rule, hparent, h, hask, Except.map]

theorem enterRules_of_none (h : e.apply node = none)
    (hparent : ctx.parent.isSome = true) (hcurrent : ctx.current.isSome = true)
    (past : List Entry) :
    ∃ journal, journal.filterMap Entry.arrival? = [(0, node)] ∧
      enterRules 0 e.rules past node ctx =
        (⟨node, { ctx with current := none, pending := none }, journal,
          .removed⟩, []) := by
  simp [rules, enterRules, enter_eq hparent hcurrent, h,
    Reply.settle_remove hparent hcurrent, Entry.arrival?]

/-- The node is prepared by the ordinary rules once the edit has been made,
which hands on `edited`. -/
structure Enters (o : RenderOptions) (node edited : Node) (there : Context)
    (entered : Visit) (exits : List (Nat × ExitAction)) : Prop where
  prepares : Rule.Prepares Rule.ordinary o edited there entered exits
  arrivals : entered.journal.filterMap Entry.arrival? =
    [(0, node), (1, edited), (2, edited.withLiteral), (3, edited.withLiteral)]

/-- The ordinary rules go on behind the edit. -/
theorem enters_of_journal {there : Context} (hpending : there.pending = none)
    (hoptions : there.options = o) {journal : List Entry}
    (hjournal : journal.filterMap Entry.arrival? = [(0, node)])
    (past : List Entry) :
    let later := enterRules 1 Rule.defaults past edited there
    Enters o node edited there (later.1.after journal) later.2 := by
  have hprepares := (Rule.attachTo_ordinary (List.Subset.refl _)
    (List.Subset.refl _)).prepares 1 past edited hpending hoptions
  refine ⟨⟨hprepares.verdict, hprepares.context, hprepares.children,
    hprepares.leaving⟩, ?_⟩
  rw [Visit.after, List.filterMap_append, hjournal,
    Rule.arrivals_defaults 1 past edited hpending]
  rfl

theorem enterRules_of_some (h : e.apply node = some edited)
    (hparent : ctx.parent.isSome = true) (hcurrent : ctx.current.isSome = true)
    (hoptions : ctx.options = o) (past : List Entry) :
    Enters o node edited
      { ctx with current := some edited.kind, pending := none }
      (enterRules 0 e.rules past node ctx).1
      (enterRules 0 e.rules past node ctx).2 := by
  simp only [rules, enterRules, enter_eq hparent hcurrent, h, Option.map_some,
    Option.getD_some, Reply.settle_replace hparent hcurrent, Except.toOption,
    Option.bind_some, id, Option.toList_none, List.map_nil, List.nil_append]
  let there : Context :=
    { ctx with current := some edited.kind, pending := none }
  have hthere : there.pending = none := rfl
  have hjournal : [.invoked .enter 0 node ctx,
      .requested (.replace edited) ctx.childIndex].filterMap Entry.arrival? =
        [(0, node)] := rfl
  exact enters_of_journal hthere hoptions hjournal _

/-- At the top the edit does nothing. -/
theorem enterRules_top (e : Edit) (node : Node) (hparent : ctx.parent = none)
    (hpending : ctx.pending = none) (hoptions : ctx.options = o)
    (past : List Entry) :
    Enters o node node ctx (enterRules 0 e.rules past node ctx).1
      (enterRules 0 e.rules past node ctx).2 := by
  have hreply : e.rule.enter past node ctx = ⟨node, [], .ok none⟩ := by
    simp [rule, hparent]
  rw [rules, Rule.enterRules_cons_of_reply hpending hreply rfl]
  exact enters_of_journal hpending hoptions rfl _

/-- A visit that has found its new node goes on with what stands below it, and
gives the new node its expression in the end. -/
theorem gives_of_entered {limit : Nat} {past : List Entry} {there : Context}
    (henters : Enters o node edited there
      (enterRules 0 e.rules
        (.visited node.kind ctx.depth ctx.childIndex :: past)
        node { ctx with current := some node.kind }).1
      (enterRules 0 e.rules
        (.visited node.kind ctx.depth ctx.childIndex :: past)
        node { ctx with current := some node.kind }).2)
    (hpending : there.pending = none) (hoptions : there.options = o)
    (hone : ∀ child ∈ edited.children, ∀ past (inner : Context),
      inner.parent.isSome = true → inner.pending = none → inner.options = o →
      (visit e.rules limit past child inner).Gives o
        ((e.topDown child).map (Node.attached o)) (e.arrivals child)) :
    (visit e.rules (limit + 1) past node ctx).Gives o
      (some ((e.below edited).attached o))
      ((0, node) :: (1, edited) :: (2, edited.withLiteral) ::
        (3, edited.withLiteral) :: edited.children.flatMap e.arrivals) := by
  generalize henter : enterRules 0 e.rules
    (.visited node.kind ctx.depth ctx.childIndex :: past) node
    { ctx with current := some node.kind } = result at henters
  obtain ⟨entered, exits⟩ := result
  have hprepares : Rule.Prepares Rule.ordinary o edited there entered exits :=
    henters.prepares
  constructor
  · have hleaves := hprepares.visit_leaves henter hpending hoptions
      fun child hchild past inner hi hp ho =>
        (hone child hchild past inner hi hp ho).toLeaves
    rwa [← attached_below] at hleaves
  · obtain ⟨hverdict, rfl, hchildren, _⟩ := hprepares
    rw [← hchildren] at hone ⊢
    have hbelow := visitAll_gives hone entered.node.kind 0
      (entered.journal.reverse ++
        .visited node.kind ctx.depth ctx.childIndex :: past) hpending hoptions
    generalize hvisits : visitAll _ _ _ _ _ entered.context = below at hbelow
    rw [visit_arrivals henter hverdict hvisits hbelow.verdict, hbelow.calls,
      show entered.journal.filterMap Entry.arrival? = _ from henters.arrivals]
    rfl

/-- A visit below the top that may go as deep as the tree rewrites it and gives
it its expressions. -/
theorem visit_gives {limit : Nat} {past : List Entry}
    (hlimit : node.height ≤ limit) (hparent : ctx.parent.isSome = true)
    (hpending : ctx.pending = none) (hoptions : ctx.options = o) :
    (visit e.rules limit past node ctx).Gives o
      ((e.topDown node).map (Node.attached o)) (e.arrivals node) := by
  induction limit generalizing past node ctx with
  | zero =>
      have hpos := node.heights_children_lt
      omega
  | succ limit ih =>
      let here : Context := { ctx with current := some node.kind }
      have hhere : here.parent.isSome = true := hparent
      cases h : e.apply node with
      | none =>
          obtain ⟨journal, hjournal, henter⟩ := enterRules_of_none h hhere rfl
            (.visited node.kind ctx.depth ctx.childIndex :: past)
          rw [topDown_of_none h, arrivals_of_none h,
            visit_eq_of_not_kept henter (by simp)]
          refine ⟨⟨.inr rfl, rfl, rfl, hoptions⟩, ?_⟩
          rw [Visit.after, List.filterMap_append, hjournal]
          rfl
      | some edited =>
          rw [topDown_of_some h, arrivals_of_some h]
          refine gives_of_entered (enterRules_of_some h hhere rfl hoptions _)
            rfl hoptions ?_
          intro child hchild past inner hinner hp ho
          have hheight := e.height_lt h hchild
          exact ih (by omega) hinner hp ho

end Edit

/-- A pass that edits nodes on arrival and gives them their expressions succeeds
and leaves what the ordinary pass leaves of the tree that is rewritten from the
top down.  On arrival the edit is handed each node that stands below what it has
put in place, once and in order, and the ordinary rules are handed what it puts
in the place of that node. -/
theorem Edit.rewrite_fuses (e : Edit) (o : RenderOptions) (limit : Nat)
    (children : List Node) (span : Span) (expr : Option Expr)
    (hlimit : (Node.root children span expr).height ≤ limit) :
    let root := Node.root children span expr
    let pass := rewrite limit o (e.rule :: Rule.defaults) root
    let later := attachExprs o (.root (children.filterMap e.topDown) span expr)
    pass.verdict = .kept ∧ later.verdict = .kept ∧ pass.root = later.root ∧
      pass.journal.filterMap Entry.arrival? =
        [(0, root), (1, root), (2, root), (3, root)] ++
        children.flatMap e.arrivals := by
  intro root pass later
  obtain ⟨hlater, hattached⟩ := attachExprs_of_root o
    (show (Node.root (children.filterMap e.topDown) span expr).kind =
      .root from rfl)
  let start : Context := { ruleCount := e.rules.length, options := o }
  have hvisit : (visit e.rules limit [] root start).Gives o
      (some ((e.below root).attached o))
      ([(0, root), (1, root), (2, root), (3, root)] ++
        children.flatMap e.arrivals) := by
    have hheight : root.height ≤ limit := hlimit
    have hbelow := root.heights_children_lt
    obtain ⟨less, rfl⟩ : ∃ less, limit = less + 1 := ⟨limit - 1, by omega⟩
    let here : Context := { start with current := some root.kind }
    have hparent : here.parent = none := rfl
    refine gives_of_entered (e.enterRules_top root hparent rfl rfl _) rfl rfl ?_
    intro child hchild past inner hinner hp ho
    have hchild := Node.height_le_of_mem hchild
    exact visit_gives (by omega) hinner hp ho
  have hpass : pass = _ :=
    rewrite_eq_of_kept (show root.kind = .root from rfl) rfl
      hvisit.toLeaves.kept.1
  rw [hpass]
  refine ⟨rfl, hlater, ?_, ?_⟩
  · rw [show later.root = _ from hattached]
    exact hvisit.toLeaves.kept.2
  · rw [List.filterMap_append]
    exact (List.append_nil _).trans hvisit.calls

/-- Comments are removed, and an element keeps no more than the first node below
it. -/
def Edit.pruning : Edit where
  apply
    | .comment .. => none
    | .element tag attributes children selfClosing span expr =>
        some (.element tag attributes (children.take 1) selfClosing span expr)
    | node => some node
  children_mem := by
    intro node edited h child hchild
    cases node with
    | comment => simp at h
    | element =>
        rw [← Option.some.inj h] at hchild
        exact List.mem_of_mem_take hchild
    | _ =>
        rw [← Option.some.inj h] at hchild
        exact hchild

/-- Behind a comment that is removed the next node is met, and behind the first
node of an element the pruned ones are not. -/
theorem Edit.rewrite_fuses_pruning :
    let zero : Span := ⟨0, 0⟩
    let list :=
      Node.element "p" [] [.comment "c" zero none, .text "b" zero none]
        false zero none
    let children := [.comment "a" zero none, list, .text "d" zero none]
    let pruned := children.filterMap Edit.pruning.topDown
    let pass :=
      rewrite 3 {} (Edit.pruning.rule :: Rule.defaults)
        (.root children zero none)
    (Node.root children zero none).height ≤ 3 ∧ pass.verdict = .kept ∧
      pass.root.outline = "Root\n--Element: p\n--Text: d\n" ∧
      pass.root = (attachExprs {} (.root pruned zero none)).root := by
  intro zero list children pruned pass
  have hheight : (Node.root children zero none).height ≤ 3 := by decide
  have hfused := Edit.rewrite_fuses Edit.pruning {} 3 children zero none hheight
  exact ⟨hheight, hfused.1, by decide +kernel, hfused.2.2.1⟩

end MarkupTemplate
