/-
The ordinary pass is a plain recursion over the tree.  Whatever expressions a
tree carried before, afterwards texts carry their literal, elements the call
that builds them from what is below, and roots their render function.  This is
so because each rule gives the nodes of one kind their expressions and lets the
others be, and a list of such rules does the same for all their kinds.
-/
import MarkupTemplate.Rewrite.Default
import MarkupTemplate.Proofs.Tree
import MarkupTemplate.Proofs.Visiting

namespace MarkupTemplate

/-- What an element passes to its builder behind the tag. -/
def passedExprs : List Expr → List Expr
  | [] => []
  | [e] => [e]
  | es => [.array es]

/-- The statements of a render function over the top-level expressions. -/
def renderBody : MultiRoot → List Expr → List Expr
  | _, [] => []
  | .firstOnly, e :: _ => [.returned e]
  | .array, [e] => [.returned e]
  | .array, es => [.returned (.array es)]

theorem builderCall_eq (builder tag : String) (below : List Expr) :
    builderCall builder tag below =
      .call builder (.string tag :: passedExprs below) := by
  rcases below with _ | ⟨e, _ | ⟨e', es⟩⟩ <;> rfl

theorem renderFunction_eq (o : RenderOptions) (exprs : List Expr) :
    renderFunction o exprs =
      .function o.renderFunction [] (renderBody o.multiRoot exprs) := by
  rcases exprs with _ | ⟨e, _ | ⟨e', es⟩⟩ <;>
    cases hpolicy : o.multiRoot <;>
      simp [renderFunction, returnedExpr?, renderBody, hpolicy]

namespace Node

mutual

/-- A tree with its render expressions, each made from the expressions of the
nodes right below.  Comments and interpolations keep what they carry. -/
def attached (o : RenderOptions) : Node → Node
  | root children span _ =>
      root (attachedAll o children) span (some (.function o.renderFunction []
        (renderBody o.multiRoot ((attachedAll o children).filterMap expr?))))
  | element tag attributes children selfClosing span _ =>
      element tag attributes (attachedAll o children) selfClosing span
        (some (.call o.builder (.string tag ::
          passedExprs ((attachedAll o children).filterMap expr?))))
  | text content span _ => text content span (some (.string content))
  | interpolation expression span expr => interpolation expression span expr
  | comment content span expr => comment content span expr

def attachedAll (o : RenderOptions) : List Node → List Node
  | [] => []
  | node :: nodes => attached o node :: attachedAll o nodes

end

mutual

def bare : Node → Node
  | root children span _ => root (bareAll children) span none
  | element tag attributes children selfClosing span _ =>
      element tag attributes (bareAll children) selfClosing span none
  | text content span _ => text content span none
  | interpolation expression span _ => interpolation expression span none
  | comment content span _ => comment content span none

def bareAll : List Node → List Node
  | [] => []
  | node :: nodes => bare node :: bareAll nodes

end

mutual

/-- Nothing but expressions differs. -/
theorem bare_attached (o : RenderOptions) :
    ∀ node : Node, (node.attached o).bare = node.bare
  | root children span expr => by
      simp only [attached, bare, bareAll_attachedAll o children]
  | element tag attributes children selfClosing span expr => by
      simp only [attached, bare, bareAll_attachedAll o children]
  | text .. => rfl
  | interpolation .. => rfl
  | comment .. => rfl

theorem bareAll_attachedAll (o : RenderOptions) :
    ∀ nodes : List Node, bareAll (attachedAll o nodes) = bareAll nodes
  | [] => rfl
  | node :: nodes => by
      simp only [attachedAll, bareAll, bare_attached o node,
        bareAll_attachedAll o nodes]

end

end Node

/-- A text with its literal attached.  Other nodes stay as they are. -/
def Node.withLiteral : Node → Node
  | text content span _ => text content span (some (.string content))
  | node => node

namespace Node

/-- A node with the expression that the ordinary rules make from its own content
and the expressions right below. -/
def withExpr (o : RenderOptions) : Node → Node
  | root children span _ =>
      root children span (some (renderFunction o (childExprs children)))
  | element tag attributes children selfClosing span _ =>
      element tag attributes children selfClosing span
        (some (builderCall o.builder tag (childExprs children)))
  | node => node.withLiteral

section

variable (o : RenderOptions) (node : Node)

@[simp] theorem kind_withExpr : (node.withExpr o).kind = node.kind := by
  cases node <;> rfl

@[simp] theorem children_withExpr :
    (node.withExpr o).children = node.children := by
  cases node <;> rfl

/-- The expression that a node carried before does not matter. -/
@[simp] theorem withExpr_withChildren_withExpr (earlier : RenderOptions)
    (nodes : List Node) :
    ((node.withExpr earlier).withChildren nodes).withExpr o =
      (node.withChildren nodes).withExpr o := by
  cases node <;> rfl

@[simp] theorem withExpr_withExpr :
    (node.withExpr o).withExpr o = node.withExpr o := by
  cases node <;> rfl

end

/-- A node of a chosen kind with its expression.  Others keep what they
carry. -/
def withExprOf (kinds : Kind → Bool) (o : RenderOptions) (node : Node) : Node :=
  if kinds node.kind then node.withExpr o else node

mutual

/-- A tree in which the nodes of the chosen kinds are given their expressions,
each behind those below it. -/
def attachedTo (kinds : Kind → Bool) (o : RenderOptions) : Node → Node
  | root children span expr =>
      (root (attachedToAll kinds o children) span expr).withExprOf kinds o
  | element tag attributes children selfClosing span expr =>
      (element tag attributes (attachedToAll kinds o children) selfClosing span
        expr).withExprOf kinds o
  | leaf => leaf.withExprOf kinds o

def attachedToAll (kinds : Kind → Bool) (o : RenderOptions) :
    List Node → List Node
  | [] => []
  | node :: nodes => attachedTo kinds o node :: attachedToAll kinds o nodes

end

variable {kinds : Kind → Bool} {o : RenderOptions}

theorem attachedToAll_eq_map (nodes : List Node) :
    attachedToAll kinds o nodes = nodes.map (attachedTo kinds o) := by
  induction nodes with
  | nil => rfl
  | cons node nodes ih => rw [attachedToAll, ih, List.map_cons]

theorem attachedTo_eq (node : Node) :
    node.attachedTo kinds o =
      (node.withChildren (node.children.map (attachedTo kinds o))).withExprOf
        kinds o := by
  cases node with
  | root => rw [attachedTo, attachedToAll_eq_map]; rfl
  | element => rw [attachedTo, attachedToAll_eq_map]; rfl
  | _ => rfl

end Node

theorem Context.perform_remarks (ctx : Context) (remarks : List Remark) :
    ctx.perform (remarks.map .say) = (ctx, remarks.map .remarked) := by
  induction remarks with
  | nil => rfl
  | cons remark remarks ih => simp [Context.perform, ih]

/-- A rule that asks for nothing and does not fail leaves the context as it
is. -/
theorem Reply.settle_remarks {α : Type} {ctx : Context}
    (hpending : ctx.pending = none) (node : Node) (remarks : List Remark)
    (value : α) (entry : Entry) :
    (Reply.mk node (remarks.map .say) (.ok value)).settle ctx entry =
      ⟨node, ctx, entry :: remarks.map .remarked, .kept⟩ := by
  simp [Reply.settle, Context.perform_remarks, hpending]

/-! ## Rules that give expressions -/

/-- An exit action that gives the nodes of a kind their expressions. -/
def attachesOnLeaving (kind : Kind) (action : ExitAction) : Prop :=
  ∀ past node ctx, node.kind = kind → ∃ remarks : List Remark,
    action past node ctx =
      ⟨node.withExpr ctx.options, remarks.map .say, .ok ()⟩

/-- A rule that gives the nodes of a kind their expressions and lets the others
be.  It may do so on arrival where nothing can stand below a node. -/
structure Rule.Attaches (kind : Kind) (rule : Rule) : Prop where
  own : ∀ past node ctx, node.kind = kind →
    (node.IsLeaf ∧
      rule.enter past node ctx = ⟨node.withExpr ctx.options, [], .ok none⟩) ∨
    ∃ action, attachesOnLeaving kind action ∧
      rule.enter past node ctx = ⟨node, [], .ok (some action)⟩
  other : ∀ past node ctx, node.kind ≠ kind →
    rule.enter past node ctx = ⟨node, [], .ok none⟩

namespace Rule

theorem text_attaches : Attaches .text text := by
  constructor
  · intro past node ctx hkind
    cases node <;>
      simp_all [Node.kind, Node.IsLeaf, text, Node.withExpr, Node.withLiteral]
  · intro past node ctx hkind
    cases node <;> simp_all [Node.kind, text]

theorem element_attaches : Attaches .element element := by
  have hleaving : attachesOnLeaving .element elementExit := by
    intro past node ctx hkind
    refine ⟨[], ?_⟩
    cases node <;> simp_all [Node.kind, elementExit, Node.withExpr]
  constructor
  · intro past node ctx hkind
    exact .inr ⟨elementExit, hleaving, by simp [element, hkind]⟩
  · intro past node ctx hkind
    simp [element, hkind]

theorem root_attaches : Attaches .root root := by
  have hleaving : attachesOnLeaving .root rootExit := by
    intro past node ctx hkind
    cases node with
    | root children span expr =>
        let exprs := childExprs children
        by_cases hseveral : ctx.options.multiRoot = .firstOnly ∧
            1 < exprs.length
        · exact ⟨[.severalRoots exprs.length],
            by simp [rootExit, Node.withExpr, exprs, hseveral]⟩
        · exact ⟨[], by simp [rootExit, Node.withExpr, exprs, hseveral]⟩
    | _ => contradiction
  constructor
  · intro past node ctx hkind
    exact .inr ⟨rootExit, hleaving, by simp [root, hkind]⟩
  · intro past node ctx hkind
    simp [root, hkind]

/-- A rule that asks for nothing and does not fail hands its node on to the next
one. -/
theorem enterRules_cons_of_reply {rule : Rule} {past : List Entry}
    {node edited : Node} {ctx : Context} {exit : Option ExitAction}
    (hpending : ctx.pending = none)
    (hreply : rule.enter past node ctx = ⟨edited, [], .ok exit⟩) {index : Nat}
    {rules : List Rule} {later : Visit} {exits : List (Nat × ExitAction)}
    (hlater : enterRules (index + 1) rules
      (.invoked .enter index node ctx :: past) edited ctx = (later, exits)) :
    enterRules index (rule :: rules) past node ctx =
      (later.after [.invoked .enter index node ctx],
        exit.toList.map ((index, ·)) ++ exits) := by
  have hsettle := Reply.settle_remarks hpending edited [] exit
    (.invoked .enter index node ctx)
  rw [List.map_nil, List.map_nil] at hsettle
  rw [enterRules, hreply]
  simp only [hsettle, List.reverse_singleton, List.singleton_append, hlater,
    Except.toOption, Option.bind_some, id]

/-- Rules for other kinds do nothing on arrival. -/
theorem enterRules_of_others {rules : List Rule} {node : Node} {ctx : Context}
    (hpending : ctx.pending = none)
    (hrules : ∀ rule ∈ rules, ∃ kind, kind ≠ node.kind ∧ rule.Attaches kind)
    (index : Nat) (past : List Entry) :
    ∃ journal, enterRules index rules past node ctx =
      (⟨node, ctx, journal, .kept⟩, []) := by
  induction rules generalizing index past with
  | nil => exact ⟨[], rfl⟩
  | cons rule rules ih =>
      obtain ⟨kind, hkind, hrule⟩ := hrules rule List.mem_cons_self
      obtain ⟨_, hlater⟩ :=
        ih (fun r hr => hrules r (List.mem_cons_of_mem _ hr)) (index + 1) _
      exact ⟨_, enterRules_cons_of_reply hpending
        (hrule.other past node ctx hkind.symm) hlater⟩

/-- On arrival, rules that give expressions leave a node as it is or, if nothing
can stand below it, with its expression.  A rule for the kind of the node has
given it the expression, or an exit action will. -/
theorem enterRules_attaches {rules : List Rule} (node : Node) {ctx : Context}
    (hpending : ctx.pending = none)
    (hrules : ∀ rule ∈ rules, ∃ kind, rule.Attaches kind) (index : Nat)
    (past : List Entry) :
    ∃ entered journal exits,
      enterRules index rules past node ctx =
        (⟨entered, ctx, journal, .kept⟩, exits) ∧
      (∀ exit ∈ exits, attachesOnLeaving node.kind exit.2) ∧
      (entered = node ∨ node.IsLeaf ∧ entered = node.withExpr ctx.options) ∧
      ((∃ rule ∈ rules, rule.Attaches node.kind) →
        exits ≠ [] ∨ node.IsLeaf ∧ entered = node.withExpr ctx.options) := by
  induction rules generalizing index past node with
  | nil => exact ⟨node, [], [], rfl, by simp, .inl rfl, by simp⟩
  | cons rule rules ih =>
      have hrest : ∀ r ∈ rules, ∃ kind, r.Attaches kind :=
        fun r hr => hrules r (List.mem_cons_of_mem _ hr)
      by_cases hown : rule.Attaches node.kind
      · rcases hown.own past node ctx rfl with
          ⟨hleaf, hreply⟩ | ⟨action, haction, hreply⟩
        · obtain ⟨entered, _, exits, hlater, hexits, hentered, _⟩ :=
            ih (node.withExpr ctx.options) hrest (index + 1) _
          have hmade : entered = node.withExpr ctx.options := by
            rcases hentered with hentered | ⟨_, hentered⟩
            · exact hentered
            · rw [hentered, Node.withExpr_withExpr]
          rw [Node.kind_withExpr] at hexits
          exact ⟨entered, _, _, enterRules_cons_of_reply hpending hreply hlater,
            hexits, .inr ⟨hleaf, hmade⟩, fun _ => .inr ⟨hleaf, hmade⟩⟩
        · obtain ⟨entered, _, exits, hlater, hexits, hentered, _⟩ :=
            ih node hrest (index + 1) _
          refine ⟨entered, _, _,
            enterRules_cons_of_reply hpending hreply hlater, ?_, hentered,
            fun _ => .inl (by simp)⟩
          intro exit hexit
          rcases List.mem_cons.mp hexit with rfl | hexit
          · exact haction
          · exact hexits exit hexit
      · obtain ⟨kind, hrule⟩ := hrules rule List.mem_cons_self
        have hkind : node.kind ≠ kind := by
          rintro rfl
          exact hown hrule
        obtain ⟨entered, _, exits, hlater, hexits, hentered, hmade⟩ :=
          ih node hrest (index + 1) _
        refine ⟨entered, _, _, enterRules_cons_of_reply hpending
          (hrule.other past node ctx hkind) hlater, hexits, hentered, ?_⟩
        rintro ⟨r, hr, hattaches⟩
        rcases List.mem_cons.mp hr with rfl | hr
        · exact absurd hattaches hown
        · exact hmade ⟨r, hr, hattaches⟩

/-- Exit actions for the kind of a node give it its expression, however many
they are. -/
theorem runExits_attaches {exits : List (Nat × ExitAction)} {node : Node}
    {ctx : Context} (hpending : ctx.pending = none)
    (hexits : ∀ exit ∈ exits, attachesOnLeaving node.kind exit.2)
    (hne : exits ≠ []) (past : List Entry) :
    ∃ journal, runExits exits past node ctx =
      ⟨node.withExpr ctx.options, ctx, journal, .kept⟩ := by
  induction exits generalizing past node with
  | nil => exact absurd rfl hne
  | cons exit exits ih =>
      obtain ⟨index, action⟩ := exit
      have hfirst : attachesOnLeaving node.kind action :=
        hexits _ List.mem_cons_self
      obtain ⟨remarks, haction⟩ := hfirst past node ctx rfl
      rw [runExits, haction, Reply.settle_remarks hpending]
      by_cases hlast : exits = []
      · subst hlast
        exact ⟨_, rfl⟩
      · have hlater : ∀ exit ∈ exits,
            attachesOnLeaving (node.withExpr ctx.options).kind exit.2 := by
          intro exit hexit
          rw [Node.kind_withExpr]
          exact hexits exit (List.mem_cons_of_mem _ hexit)
        simp only
        generalize List.reverse _ ++ past = past
        obtain ⟨_, hrun⟩ := ih hlater hlast past
        rw [Node.withExpr_withExpr] at hrun
        rw [hrun]
        exact ⟨_, rfl⟩

/-- The rules give expressions to the nodes of these kinds, and to no others. -/
structure AttachTo (kinds : Kind → Bool) (rules : List Rule) : Prop where
  each : ∀ rule ∈ rules, ∃ kind, kinds kind = true ∧ rule.Attaches kind
  all : ∀ kind, kinds kind = true → ∃ rule ∈ rules, rule.Attaches kind

def ordinary (kind : Kind) : Bool :=
  kind == .text || kind == .element || kind == .root

/-- Only which ordinary rules are listed matters. -/
theorem attachTo_ordinary {rules : List Rule} (hrules : rules ⊆ defaults)
    (hall : defaults ⊆ rules) : AttachTo ordinary rules := by
  constructor
  · intro rule hrule
    have hdefault : rule ∈ [text, element, root] := hrules hrule
    simp only [List.mem_cons, List.not_mem_nil, or_false] at hdefault
    rcases hdefault with rfl | rfl | rfl
    · exact ⟨.text, rfl, text_attaches⟩
    · exact ⟨.element, rfl, element_attaches⟩
    · exact ⟨.root, rfl, root_attaches⟩
  · intro kind hkind
    cases kind with
    | text => exact ⟨text, hall (by simp [defaults]), text_attaches⟩
    | element => exact ⟨element, hall (by simp [defaults]), element_attaches⟩
    | root => exact ⟨root, hall (by simp [defaults]), root_attaches⟩
    | _ => contradiction

/-- What rules for these kinds have done to a node on arrival: they have kept
its kind and its children, and once it is left with other children, it has its
expression if its kind is one of theirs. -/
structure Prepares (kinds : Kind → Bool) (o : RenderOptions) (node : Node)
    (ctx : Context) (entered : Visit) (exits : List (Nat × ExitAction)) :
    Prop where
  verdict : entered.verdict = .kept
  context : entered.context = ctx
  children : entered.node.children = node.children
  leaving : ∀ past nodes (back : Context), back.pending = none →
    back.options = o → ∃ journal,
      runExits exits.reverse past (entered.node.withChildren nodes) back =
        ⟨(node.withChildren nodes).withExprOf kinds o, back, journal, .kept⟩

variable {kinds : Kind → Bool} {rules : List Rule} {o : RenderOptions}

theorem AttachTo.prepares (hrules : AttachTo kinds rules) (index : Nat)
    (past : List Entry) (node : Node) {ctx : Context}
    (hpending : ctx.pending = none) (hoptions : ctx.options = o) :
    Prepares kinds o node ctx (enterRules index rules past node ctx).1
      (enterRules index rules past node ctx).2 := by
  subst hoptions
  by_cases hkind : kinds node.kind = true
  · have heach : ∀ rule ∈ rules, ∃ kind, rule.Attaches kind := by
      intro rule hrule
      obtain ⟨kind, _, hattaches⟩ := hrules.each rule hrule
      exact ⟨kind, hattaches⟩
    obtain ⟨entered, _, exits, henter, hexits, hentered, hmade⟩ :=
      enterRules_attaches node hpending heach index past
    have hsame : entered.kind = node.kind := by
      rcases hentered with rfl | ⟨_, rfl⟩ <;> simp
    rw [henter]
    refine ⟨rfl, rfl, ?_, ?_⟩
    · rcases hentered with rfl | ⟨_, rfl⟩ <;> simp
    · intro past nodes back hback hoptions
      rw [Node.withExprOf, Node.kind_withChildren, if_pos hkind, ← hoptions]
      by_cases hnone : exits = []
      · -- the expression was given on arrival, and no children can have come in
        -- since
        have hleaf := (hmade (hrules.all node.kind hkind)).resolve_left
          (not_not_intro hnone)
        have hmade : (node.withExpr back.options).IsLeaf := by
          rw [Node.IsLeaf, Node.kind_withExpr]
          exact hleaf.1
        rw [hnone, hleaf.2, hleaf.1.withChildren, ← hoptions,
          hmade.withChildren]
        exact ⟨[], rfl⟩
      · have hreversed : ∀ exit ∈ exits.reverse,
            attachesOnLeaving (entered.withChildren nodes).kind exit.2 := by
          intro exit hexit
          rw [Node.kind_withChildren, hsame]
          exact hexits exit (List.mem_reverse.mp hexit)
        obtain ⟨journal, hrun⟩ :=
          runExits_attaches hback hreversed (by simpa using hnone) past
        refine ⟨journal, ?_⟩
        rw [hrun]
        rcases hentered with rfl | ⟨_, rfl⟩
        · rfl
        · rw [← hoptions, Node.withExpr_withChildren_withExpr]
  · have hothers : ∀ rule ∈ rules, ∃ kind, kind ≠ node.kind ∧
        rule.Attaches kind := by
      intro rule hrule
      obtain ⟨kind, hchosen, hattaches⟩ := hrules.each rule hrule
      refine ⟨kind, ?_, hattaches⟩
      rintro rfl
      exact hkind hchosen
    obtain ⟨_, henter⟩ := enterRules_of_others hpending hothers index past
    rw [henter]
    refine ⟨rfl, rfl, rfl, ?_⟩
    intro past nodes back _ _
    rw [Node.withExprOf, Node.kind_withChildren, if_neg hkind]
    exact ⟨[], rfl⟩

end Rule

/-! ## Visits -/

/-- A visit leaves this of its node, or removes it, and goes on with the same
options. -/
structure Visit.Leaves (o : RenderOptions) (result : Option Node) (v : Visit) :
    Prop where
  completes : v.Completes
  left : v.left? = result
  pending : v.context.pending = none
  options : v.context.options = o

structure Visits.Leaves (o : RenderOptions) (results : List Node) (v : Visits) :
    Prop where
  nodes : v.nodes = results
  verdict : v.verdict = .kept
  pending : v.context.pending = none
  options : v.context.options = o

theorem Visit.Leaves.kept {o : RenderOptions} {result : Node} {v : Visit}
    (h : v.Leaves o (some result)) : v.verdict = .kept ∧ v.node = result := by
  have hleft := h.left
  by_cases hkept : v.verdict = .kept
  · rw [left?_of_kept hkept] at hleft
    exact ⟨hkept, Option.some.inj hleft⟩
  · rw [left?_of_not_kept hkept] at hleft
    contradiction

/-- What every visit below a node does, the visits one after another do.  The
place of a removed node goes to the next one, so none is passed over. -/
theorem visitAll_leaves {o : RenderOptions}
    {visitOne : List Entry → Node → Context → Visit} {f : Node → Option Node}
    {nodes : List Node}
    (hone : ∀ node ∈ nodes, ∀ past (ctx : Context), ctx.parent.isSome = true →
      ctx.pending = none → ctx.options = o →
      (visitOne past node ctx).Leaves o (f node))
    (parent : Kind) (index : Nat) (past : List Entry) {ctx : Context}
    (hpending : ctx.pending = none) (hoptions : ctx.options = o) :
    (visitAll visitOne parent index nodes past ctx).Leaves o
      (nodes.filterMap f) := by
  induction nodes generalizing index past ctx with
  | nil => exact ⟨rfl, rfl, hpending, hoptions⟩
  | cons node nodes ih =>
      have hfirst := hone node List.mem_cons_self past { ctx with
        parent := some parent, childIndex := index, depth := ctx.depth + 1 }
        rfl hpending hoptions
      generalize hv : visitOne past node _ = v at hfirst
      obtain ⟨next, hall⟩ := visitAll_cons_of_completes hv hfirst.completes
      have hlater : (visitAll visitOne parent next nodes
          (v.journal.reverse ++ past)
          { v.context with depth := v.context.depth - 1 }).Leaves o _ :=
        ih (fun n hn => hone n (List.mem_cons_of_mem _ hn)) _ _ hfirst.pending
          hfirst.options
      rw [hall]
      refine ⟨?_, hlater.verdict, hlater.pending, hlater.options⟩
      rw [hfirst.left, hlater.nodes]
      cases h : f node <;> simp [h]

namespace Rule

variable {kinds : Kind → Bool} {rules : List Rule} {o : RenderOptions}

/-- A visit whose rules have prepared a node goes on with what stands below it,
and gives the node its expression in the end. -/
theorem Prepares.visit_leaves {limit : Nat} {past : List Entry}
    {node edited : Node} {ctx there : Context} {entered : Visit}
    {exits : List (Nat × ExitAction)} {f : Node → Option Node}
    (hprepares : Prepares kinds o edited there entered exits)
    (henter : enterRules 0 rules
      (.visited node.kind ctx.depth ctx.childIndex :: past) node
      { ctx with current := some node.kind } = (entered, exits))
    (hpending : there.pending = none) (hoptions : there.options = o)
    (hone : ∀ child ∈ edited.children, ∀ past (inner : Context),
      inner.parent.isSome = true → inner.pending = none → inner.options = o →
      (visit rules limit past child inner).Leaves o (f child)) :
    (visit rules (limit + 1) past node ctx).Leaves o
      (some ((edited.withChildren (edited.children.filterMap f)).withExprOf
        kinds o)) := by
  obtain ⟨hverdict, rfl, hchildren, hexits⟩ := hprepares
  rw [← hchildren] at hone ⊢
  have hinside := visitAll_leaves hone entered.node.kind 0
    (entered.journal.reverse ++
      .visited node.kind ctx.depth ctx.childIndex :: past) hpending hoptions
  generalize hbelow : visitAll _ _ _ _ _ entered.context = below at hinside
  let back : Context := { below.context with
    parent := entered.context.parent
    childIndex := entered.context.childIndex
    current := some entered.node.kind }
  have hback : back.pending = none := hinside.pending
  let journal : List Entry := .visited node.kind ctx.depth ctx.childIndex ::
    (entered.journal ++ below.journal)
  obtain ⟨_, hrun⟩ :=
    hexits (journal.reverse ++ past) below.nodes back hback hinside.options
  rw [visit_eq_of_kept henter hverdict hbelow hinside.verdict, hrun,
    hinside.nodes]
  exact ⟨.inl rfl, rfl, hback, hinside.options⟩

/-- A visit that may go as deep as the tree gives its nodes their
expressions. -/
theorem visit_attachedTo (hrules : AttachTo kinds rules) {limit : Nat}
    {past : List Entry} {node : Node} {ctx : Context}
    (hlimit : node.height ≤ limit) (hpending : ctx.pending = none)
    (hoptions : ctx.options = o) :
    (visit rules limit past node ctx).Leaves o
      (some (node.attachedTo kinds o)) := by
  induction limit generalizing past node ctx with
  | zero =>
      have hpos := node.heights_children_lt
      omega
  | succ limit ih =>
      let here : Context := { ctx with current := some node.kind }
      have hhere : here.pending = none := hpending
      have hprepares := hrules.prepares 0
        (.visited node.kind ctx.depth ctx.childIndex :: past) node
        hhere hoptions
      have hone : ∀ child ∈ node.children, ∀ past (inner : Context),
          inner.parent.isSome = true → inner.pending = none →
          inner.options = o → (visit rules limit past child inner).Leaves o
            ((some ∘ Node.attachedTo kinds o) child) := by
        intro child hchild past inner _ hp ho
        have hheight := Node.height_le_of_mem hchild
        have hbelow := node.heights_children_lt
        exact ih (by omega) hp ho
      have hvisit := hprepares.visit_leaves rfl hpending hoptions hone
      rwa [List.filterMap_eq_map, ← Node.attachedTo_eq] at hvisit

/-- A pass of such rules over a root. -/
theorem rewrite_attachedTo (hrules : AttachTo kinds rules) {limit : Nat}
    {root : Node} (hroot : root.kind = .root) (hlimit : root.height ≤ limit) :
    (rewrite limit o rules root).verdict = .kept ∧
      (rewrite limit o rules root).root = root.attachedTo kinds o := by
  have hvisit : (visit rules limit [] root
      { ruleCount := rules.length, options := o }).Leaves o _ :=
    visit_attachedTo hrules hlimit rfl rfl
  rw [rewrite_eq_of_kept hroot rfl hvisit.kept.1]
  exact ⟨rfl, hvisit.kept.2⟩

end Rule

/-! ## The ordinary pass -/

namespace Node

mutual

/-- The plain recursion is that of the ordinary rules. -/
theorem attachedTo_ordinary (o : RenderOptions) :
    ∀ node : Node, node.attachedTo Rule.ordinary o = node.attached o
  | root children span expr => by
      rw [attachedTo, attached, attachedToAll_ordinary o children,
        ← renderFunction_eq]
      rfl
  | element tag attributes children selfClosing span expr => by
      rw [attachedTo, attached, attachedToAll_ordinary o children,
        ← builderCall_eq]
      rfl
  | text .. => rfl
  | interpolation .. => rfl
  | comment .. => rfl

theorem attachedToAll_ordinary (o : RenderOptions) : ∀ nodes : List Node,
    attachedToAll Rule.ordinary o nodes = attachedAll o nodes
  | [] => rfl
  | node :: nodes => by
      rw [attachedToAll, attachedAll, attachedTo_ordinary o node,
        attachedToAll_ordinary o nodes]

end

end Node

theorem attachExprs_of_root {root : Node} (o : RenderOptions)
    (hroot : root.kind = .root) :
    (attachExprs o root).verdict = .kept ∧
      (attachExprs o root).root = root.attached o := by
  rw [← Node.attachedTo_ordinary]
  exact Rule.rewrite_attachedTo
    (Rule.attachTo_ordinary (List.Subset.refl _) (List.Subset.refl _)) hroot
    Nat.le.refl

theorem attachExprs_of_not_root {root : Node} (o : RenderOptions)
    (hroot : root.kind ≠ .root) :
    attachExprs o root = ⟨root, [], .failed (.notRoot root.kind)⟩ := by
  rw [attachExprs, rewrite, if_pos hroot]

/-- The ordinary pass attaches to a root the expressions of the plain recursion
and changes nothing else.  It refuses every other tree and leaves it alone. -/
theorem attachExprs_eq_attached (o : RenderOptions) (root : Node) :
    let pass := attachExprs o root
    pass.verdict =
      (if root.kind = .root then .kept else .failed (.notRoot root.kind)) ∧
      pass.root = (if root.kind = .root then root.attached o else root) ∧
      pass.root.bare = root.bare := by
  intro pass
  by_cases hroot : root.kind = .root
  · obtain ⟨hverdict, hattached⟩ := attachExprs_of_root o hroot
    rw [if_pos hroot, if_pos hroot]
    refine ⟨hverdict, hattached, ?_⟩
    rw [show pass.root = root.attached o from hattached, Node.bare_attached]
  · have hpass : pass = ⟨root, [], .failed (.notRoot root.kind)⟩ :=
      attachExprs_of_not_root o hroot
    rw [if_neg hroot, if_neg hroot, hpass]
    exact ⟨rfl, rfl, rfl⟩

end MarkupTemplate
