/-
The context tells a rule where it is.  Whatever has been removed or put in place
before, whenever a rule or an exit action is called, the context shows the kind
of the node that it is handed, the kind of the node above and the position among
the children of that one, as the tree stands at that moment.
-/
import MarkupTemplate.Rewrite.Recipe
import MarkupTemplate.Proofs.Tree
import MarkupTemplate.Proofs.Walker

namespace MarkupTemplate

/-- An exit action whose edits of a node do not change its kind. -/
def keepsKind (action : ExitAction) : Prop :=
  ∀ past node ctx, (action past node ctx).node.kind = node.kind

/-- A rule whose edits of a node do not change its kind, on arrival or later. -/
structure Rule.KeepsKind (rule : Rule) : Prop where
  enter : ∀ past node ctx, (rule.enter past node ctx).node.kind = node.kind
  exit : ∀ past node ctx action,
    (rule.enter past node ctx).outcome = .ok (some action) → keepsKind action

theorem Action.kind_edit (action : Action) (node : Node) :
    (action.edit node).kind = node.kind := by
  cases action <;> cases node <;> rfl

theorem runSteps_kind (steps : List Step) (node : Node) (ctx : Context) :
    (runSteps steps node ctx).node.kind = node.kind := by
  induction steps generalizing node ctx with
  | nil => rfl
  | cons step steps ih =>
      simp only [runSteps]
      split
      · exact (ih _ _).trans (step.action.kind_edit node)
      · split
        · exact ih _ _
        · split
          · exact ih _ _
          · rfl

/-- Rules that are written as data keep kinds. -/
theorem Recipe.toRule_keepsKind (recipe : Recipe) :
    recipe.toRule.KeepsKind := by
  constructor
  · intro _ node ctx
    simp only [Recipe.toRule]
    split
    · exact runSteps_kind recipe.enter node ctx
    · rfl
  · intro _ node ctx action haction _ inner there
    simp only [Recipe.toRule] at haction
    split at haction
    · cases houtcome : (runSteps recipe.enter node ctx).outcome with
      | error => simp [Reply.after, houtcome, Except.map] at haction
      | ok =>
          simp only [Reply.after, houtcome, Except.map,
            Except.ok.injEq] at haction
          obtain ⟨steps, _, rfl⟩ := Option.map_eq_some_iff.mp haction
          exact runSteps_kind steps inner there
    · simp at haction

namespace Node

/-- The node to which a path leads, which gives a position among children for
each level on the way down. -/
def at? : List Nat → Node → Option Node
  | [], node => some node
  | index :: path, node => node.children[index]?.bind (at? path)

theorem at?_append (path more : List Nat) (node : Node) :
    node.at? (path ++ more) = (node.at? path).bind (at? more) := by
  induction path generalizing node with
  | nil => rfl
  | cons index path ih =>
      cases hchild : node.children[index]? <;> simp [at?, hchild, ih]

/-- A node that can have nodes below it. -/
def IsBranch (node : Node) : Prop :=
  ∀ nodes, (node.withChildren nodes).children = nodes

theorem isBranch_of_children {node : Node} (h : node.children ≠ []) :
    node.IsBranch := by
  cases node with
  | root => exact fun _ => rfl
  | element => exact fun _ => rfl
  | _ => exact absurd rfl h

end Node

/-- The context tells where a node stands in a tree, which is at the end of a
path from the top, and no change is pending. -/
structure Context.Locates (ctx : Context) (tree node : Node)
    (path : List Nat) : Prop where
  reached : tree.at? path = some node
  current : ctx.current = some node.kind
  depth : ctx.depth = path.length
  top : path = [] → ctx.parent = none
  below : ∀ upper index, path = upper ++ [index] →
    ∃ holder, tree.at? upper = some holder ∧
    holder.children[index]? = some node ∧ ctx.parent = some holder.kind ∧
    ctx.childIndex = index
  pending : ctx.pending = none

namespace Walker

def tree (w : Walker) : Node :=
  w.above.foldl (fun node a => a.around node) w.node

/-- The way from the top of the tree to the node that is visited. -/
def path (w : Walker) : List Nat :=
  (w.above.map (·.before.length)).reverse

/-- The rule that the next step calls, and at which time. -/
def call? (w : Walker) : Option (Phase × Nat) :=
  match w.stage with
  | .entering index (_ :: _) _ => some (.enter, index)
  | .leaving ((index, _) :: _) => some (.exit, index)
  | _ => none

end Walker

namespace Ancestor

/-- The place below these nodes: the kind of the innermost one, and the position
behind those of its children that have been visited. -/
def place : List Ancestor → Option Kind × Nat
  | [] => (none, 0)
  | a :: _ => (some a.node.kind, a.before.length)

/-- Nodes above each other: each can hold children, has kept its own place, and
its exit actions keep kinds. -/
def Stacked : List Ancestor → Prop
  | [] => True
  | a :: above => a.node.IsBranch ∧ (a.parent, a.childIndex) = place above ∧
      (∀ exit ∈ a.exits, keepsKind exit.2) ∧ Stacked above

end Ancestor

/-- The context shows a node at its place, and no change is pending. -/
structure Context.Describes (ctx : Context) (above : List Ancestor)
    (node : Node) : Prop where
  place : (ctx.parent, ctx.childIndex) = Ancestor.place above
  current : ctx.current = some node.kind
  pending : ctx.pending = none

namespace Walker

/-- What the context shows at each stage of a visit.  A node that comes up is
shown as soon as its rules are called, and nothing is certain once a rule has
failed. -/
def Oriented (w : Walker) : Prop :=
  match w.stage with
  | .arriving =>
      (w.context.parent, w.context.childIndex) = Ancestor.place w.above ∧
        w.context.pending = none
  | .entering _ rules exits =>
      w.context.Describes w.above w.node ∧ (∀ rule ∈ rules, rule.KeepsKind) ∧
        ∀ exit ∈ exits, keepsKind exit.2
  | .leaving exits =>
      w.context.Describes w.above w.node ∧ ∀ exit ∈ exits, keepsKind exit.2
  | .ended verdict =>
      (∀ cause, verdict ≠ .failed cause) → w.context.pending = none

structure Sound (w : Walker) : Prop where
  stacked : Ancestor.Stacked w.above
  depth : w.context.depth = w.above.length
  oriented : w.Oriented

theorem sound_goOn {a : Ancestor} {above : List Ancestor} {ctx : Context}
    {journal : List Entry} (hbranch : a.behind ≠ [] → a.node.IsBranch)
    (hplace : (a.parent, a.childIndex) = Ancestor.place above)
    (hexits : ∀ exit ∈ a.exits, keepsKind exit.2)
    (habove : Ancestor.Stacked above) (hdepth : ctx.depth = above.length)
    (hpending : ctx.pending = none) : (goOn a above ctx journal).Sound := by
  unfold goOn
  split
  · refine ⟨habove, hdepth, ⟨hplace, ?_, hpending⟩, ?_⟩
    · rw [Node.kind_withChildren]
    · intro exit hexit
      exact hexits exit (List.mem_reverse.mp hexit)
  · next hbehind =>
      refine ⟨⟨hbranch (by simp [hbehind]), hplace, hexits, habove⟩, ?_,
        rfl, hpending⟩
      simp [hdepth]

/-- Behind a child that has been visited, whatever is left of it. -/
theorem sound_goOn_up {a : Ancestor} {above : List Ancestor} {ctx : Context}
    {journal : List Entry} (before : List Node)
    (hstacked : Ancestor.Stacked (a :: above))
    (hdepth : ctx.depth = (a :: above).length) (hpending : ctx.pending = none) :
    (goOn { a with before } above { ctx with depth := ctx.depth - 1 }
      journal).Sound := by
  obtain ⟨hbranch, hplace, hexits, houter⟩ := hstacked
  exact sound_goOn (fun _ => hbranch) hplace hexits houter
    (by simp [hdepth]) hpending

/-- The answer of a rule that keeps kinds leaves the walker oriented. -/
theorem sound_settled {α : Type} {w : Walker} {reply : Reply α} {entry : Entry}
    {next : Stage} (hsound : w.Sound)
    (hdescribes : w.context.Describes w.above w.node)
    (hkind : reply.node.kind = w.node.kind)
    (hnext : ∀ node ctx journal, ctx.Describes w.above node →
      Oriented ⟨w.above, node, ctx, next, journal⟩) :
    (w.settled (reply.settle w.context entry) next).Sound := by
  have hplace := reply.settle_samePlace w.context entry
  have hshows : w.context.Shows reply.node.kind := by
    rw [Context.Shows, hdescribes.pending, hdescribes.current, hkind]
  have hpending :
      (∀ cause, (reply.settle w.context entry).verdict ≠ .failed cause) → _ :=
    reply.settle_pending
  have hcurrent : (reply.settle w.context entry).verdict = .kept → _ :=
    reply.settle_current hshows
  generalize reply.settle w.context entry = v at *
  refine ⟨hsound.stacked, hplace.depth.trans hsound.depth, ?_⟩
  cases hverdict : v.verdict with
  | kept =>
      simp only [settled, hverdict]
      refine hnext _ _ _ ⟨?_, hcurrent hverdict, hpending (by simp [hverdict])⟩
      rw [hplace.parent, hplace.childIndex, hdescribes.place]
  | _ =>
      simp only [settled, hverdict, Oriented]
      simpa only [hverdict] using hpending

theorem eq_ok_of_mem_exit {reply : Reply (Option ExitAction)} {index : Nat}
    {exit : Nat × ExitAction}
    (h : exit ∈ (reply.outcome.toOption.bind id).toList.map ((index, ·))) :
    reply.outcome = .ok (some exit.2) := by
  obtain ⟨action, haction, rfl⟩ := List.mem_map.mp h
  cases houtcome : reply.outcome with
  | error => simp [houtcome, Except.toOption] at haction
  | ok value => simpa [houtcome, Except.toOption] using haction

variable {rules : List Rule} {limit : Nat} {w t : Walker}

theorem Step.sound (hrules : ∀ rule ∈ rules, rule.KeepsKind)
    (hstep : w.Step rules limit t) (hw : w.Sound) : t.Sound := by
  have horiented := hw.oriented
  have hdepth := hw.depth
  have hstacked := hw.stacked
  cases hstep with
  | tooDeep hstage =>
      simp only [Oriented, hstage] at horiented
      exact ⟨hstacked, hdepth, fun _ => horiented.2⟩
  | arrive hstage =>
      simp only [Oriented, hstage] at horiented
      exact ⟨hstacked, hdepth, ⟨horiented.1, rfl, horiented.2⟩, hrules, by simp⟩
  | @enter index rule later exits hstage =>
      simp only [Oriented, hstage] at horiented
      obtain ⟨hdescribes, hlater, hexits⟩ := horiented
      have hrule := hlater rule List.mem_cons_self
      refine sound_settled hw hdescribes (hrule.enter _ _ _) fun _ _ _ hnext =>
        ⟨hnext, ?_, ?_⟩
      · intro other hother
        exact hlater other (List.mem_cons_of_mem _ hother)
      · intro exit hexit
        rcases List.mem_append.mp hexit with hexit | hexit
        · exact hexits exit hexit
        · exact hrule.exit _ _ _ _ (eq_ok_of_mem_exit hexit)
  | @descend index exits hstage =>
      simp only [Oriented, hstage] at horiented
      obtain ⟨hdescribes, _, hexits⟩ := horiented
      exact sound_goOn Node.isBranch_of_children hdescribes.place hexits
        hstacked hdepth hdescribes.pending
  | @exit index action later hstage =>
      simp only [Oriented, hstage] at horiented
      obtain ⟨hdescribes, hexits⟩ := horiented
      refine sound_settled hw hdescribes
        (hexits (index, action) List.mem_cons_self _ _ _) fun _ _ _ hnext =>
          ⟨hnext, ?_⟩
      intro exit hexit
      exact hexits exit (List.mem_cons_of_mem _ hexit)
  | finish hstage =>
      simp only [Oriented, hstage] at horiented
      exact ⟨hstacked, hdepth, fun _ => horiented.1.pending⟩
  | keep hstage habove =>
      simp only [Oriented, hstage] at horiented
      rw [habove] at hstacked hdepth
      exact sound_goOn_up _ hstacked hdepth (horiented (by simp))
  | remove hstage habove =>
      simp only [Oriented, hstage] at horiented
      rw [habove] at hstacked hdepth
      exact sound_goOn_up _ hstacked hdepth (horiented (by simp))
  | stop hstage _ _ habove =>
      simp only [Oriented, hstage] at horiented
      rw [habove] at hstacked hdepth
      exact ⟨hstacked.2.2.2, by simp [hdepth], horiented⟩

theorem Reaches.sound {o : RenderOptions} {root : Node}
    (hrules : ∀ rule ∈ rules, rule.KeepsKind)
    (h : (start rules o root).Reaches rules limit w) : w.Sound :=
  h.invariant (fun _ _ hs hstep => (step_cases hstep).sound hrules hs)
    ⟨trivial, rfl, rfl, rfl⟩

/-- The path leads to the node that is visited, and the way up from it to the
nodes above. -/
theorem at?_tree {above : List Ancestor} (habove : Ancestor.Stacked above)
    (node : Node) :
    (above.foldl (fun node a => a.around node) node).at?
      (above.map (·.before.length)).reverse = some node := by
  induction above generalizing node with
  | nil => rfl
  | cons a above ih =>
      obtain ⟨hbranch, _, _, houter⟩ := habove
      have hchild : (a.around node).children[a.before.length]? = some node := by
        rw [Ancestor.around, hbranch]
        simp
      rw [List.map_cons, List.reverse_cons, Node.at?_append,
        List.foldl_cons, ih houter]
      simp [Node.at?, hchild]

theorem locates (hw : w.Sound)
    (hdescribes : w.context.Describes w.above w.node) :
    w.context.Locates w.tree w.node w.path := by
  have hstacked := hw.stacked
  have hplace := hdescribes.place
  refine ⟨at?_tree hstacked w.node, hdescribes.current, ?_, ?_, ?_,
    hdescribes.pending⟩
  · simp [path, hw.depth]
  · intro hpath
    have hnil : w.above = [] := by simpa [path] using hpath
    rw [hnil, Ancestor.place, Prod.mk.injEq] at hplace
    exact hplace.1
  · intro upper index hpath
    cases habove : w.above with
    | nil => simp [path, habove] at hpath
    | cons a above =>
        rw [habove] at hstacked hplace
        obtain ⟨hbranch, _, _, houter⟩ := hstacked
        simp only [path, habove, List.map_cons, List.reverse_cons] at hpath
        obtain ⟨rfl, hlast⟩ := List.append_inj' hpath rfl
        obtain rfl : a.before.length = index := by simpa using hlast
        rw [Ancestor.place, Prod.mk.injEq] at hplace
        refine ⟨a.around w.node, ?_, ?_, ?_, hplace.2⟩
        · rw [tree, habove]
          exact at?_tree houter (a.around w.node)
        · rw [Ancestor.around, hbranch]
          simp
        · rw [hplace.1, Ancestor.around, Node.kind_withChildren]

/-- Whenever a rule is called, the context describes the node. -/
theorem Sound.describes (hw : w.Sound) (hcall : w.call? ≠ none) :
    w.context.Describes w.above w.node := by
  have horiented := hw.oriented
  unfold call? at hcall
  unfold Oriented at horiented
  cases hstage : w.stage with
  | entering => exact (hstage ▸ horiented).1
  | leaving => exact (hstage ▸ horiented).1
  | _ => simp [hstage] at hcall

theorem journal_goOn (a : Ancestor) (above : List Ancestor) (ctx : Context)
    (journal : List Entry) : (goOn a above ctx journal).journal = journal := by
  unfold goOn
  split <;> rfl

/-- What a step adds to the journal.  It tells of the call that the step makes,
and of no other. -/
theorem Step.journal_eq (h : w.Step rules limit t) :
    ∃ more, t.journal = w.journal ++ more ∧ ∀ phase rule node ctx,
      .invoked phase rule node ctx ∈ more ↔
        w.call? = some (phase, rule) ∧ w.node = node ∧ w.context = ctx := by
  have hsettle {α : Type} (reply : Reply α) (now : Phase) (index : Nat)
      (next : Stage) (hcall : w.call? = some (now, index)) :
      ∃ more, (w.settled
          (reply.settle w.context (.invoked now index w.node w.context))
          next).journal = w.journal ++ more ∧ ∀ phase rule node ctx,
        .invoked phase rule node ctx ∈ more ↔
          w.call? = some (phase, rule) ∧ w.node = node ∧ w.context = ctx := by
    refine ⟨_, rfl, fun phase rule node ctx => ?_⟩
    have hacts := w.context.perform_not_invoked reply.acts phase rule node ctx
    rw [reply.journal_settle, List.mem_cons, or_iff_left hacts, hcall]
    simp only [Entry.invoked.injEq, Option.some.injEq, Prod.mk.injEq]
    constructor
    · rintro ⟨rfl, rfl, rfl, rfl⟩
      exact ⟨⟨rfl, rfl⟩, rfl, rfl⟩
    · rintro ⟨⟨rfl, rfl⟩, rfl, rfl⟩
      exact ⟨rfl, rfl, rfl, rfl⟩
  cases h with
  | enter hstage => exact hsettle _ .enter _ _ (by simp [call?, hstage])
  | exit hstage => exact hsettle _ .exit _ _ (by simp [call?, hstage])
  | arrive hstage => exact ⟨_, rfl, by simp [call?, hstage]⟩
  | tooDeep hstage =>
      exact ⟨[], (List.append_nil _).symm, by simp [call?, hstage]⟩
  | descend hstage =>
      exact ⟨[], by rw [journal_goOn, List.append_nil], by simp [call?, hstage]⟩
  | finish hstage =>
      exact ⟨[], (List.append_nil _).symm, by simp [call?, hstage]⟩
  | keep hstage =>
      exact ⟨[], by rw [journal_goOn, List.append_nil], by simp [call?, hstage]⟩
  | remove hstage =>
      exact ⟨[], by rw [journal_goOn, List.append_nil], by simp [call?, hstage]⟩
  | stop hstage => exact ⟨[], (List.append_nil _).symm, by simp [call?, hstage]⟩

theorem Reaches.journal_prefix {s : Walker} (h : s.Reaches rules limit t) :
    s.journal <+: t.journal := by
  refine h.invariant (P := fun u => s.journal <+: u.journal)
    (fun u v hu hstep => ?_) (List.prefix_refl _)
  obtain ⟨more, hmore, _⟩ := (step_cases hstep).journal_eq
  rw [hmore]
  exact hu.trans (List.prefix_append _ _)

/-- What the journal tells of calls are the calls that have been made. -/
theorem Reaches.exists_call {s : Walker} (h : s.Reaches rules limit t)
    (hs : s.journal = []) {phase : Phase} {rule : Nat} {node : Node}
    {ctx : Context} (hentry : .invoked phase rule node ctx ∈ t.journal) :
    ∃ u, s.Reaches rules limit u ∧ u.call? = some (phase, rule) ∧
      u.node = node ∧
      u.context = ctx := by
  induction h using Machine.Reaches.follow with
  | refl => simp [hs] at hentry
  | @tail u v hu hstep ih =>
      obtain ⟨more, hmore, hcalls⟩ := (step_cases hstep).journal_eq
      rw [hmore, List.mem_append] at hentry
      rcases hentry with hentry | hentry
      · exact ih hentry
      · exact ⟨u, hu, (hcalls _ _ _ _).mp hentry⟩

/-- The step that calls a rule is taken in every run that ends. -/
theorem Reaches.mem_journal {s last : Walker} (hw : s.Reaches rules limit w)
    (hlast : s.Reaches rules limit last) (hends : last.step rules limit = none)
    {phase : Phase} {rule : Nat} (hcall : w.call? = some (phase, rule)) :
    .invoked phase rule w.node w.context ∈ last.journal := by
  obtain ⟨t, hstep⟩ : ∃ t, w.step rules limit = some t := by
    unfold call? at hcall
    split at hcall
    · next hstage => exact ⟨_, by rw [step, hstage]⟩
    · next hstage => exact ⟨_, by rw [step, hstage]⟩
    · contradiction
  have hafter : t.Reaches rules limit last :=
    (hw.tail hstep).of_last hlast hends
  obtain ⟨more, hmore, hcalls⟩ := (step_cases hstep).journal_eq
  apply hafter.journal_prefix.subset
  rw [hmore, List.mem_append]
  exact Or.inr ((hcalls _ _ _ _).mpr ⟨hcall, rfl, rfl⟩)

/-- The pass ends where the walker stops. -/
theorem exists_last (limit : Nat) (o : RenderOptions) (rules : List Rule)
    {root : Node} (hroot : root.kind = .root) :
    let pass := rewrite limit o rules root
    ∃ last, (start rules o root).Reaches rules limit last ∧
      last.step rules limit = none ∧ last.tree = pass.root ∧
      last.stage = .ended pass.verdict := by
  obtain ⟨last, hlast, hends, habove, hnode, hstage, _⟩ :=
    reaches_last limit o rules hroot
  refine ⟨last, hlast, hends, ?_, hstage⟩
  rw [tree, habove]
  exact hnode

/-- The calls of which the journal of a pass tells are those of the walker. -/
theorem invoked_mem_iff (limit : Nat) (o : RenderOptions) (rules : List Rule)
    {root : Node} (hroot : root.kind = .root) (phase : Phase) (rule : Nat)
    (node : Node) (ctx : Context) :
    .invoked phase rule node ctx ∈ (rewrite limit o rules root).journal ↔
      ∃ w, (start rules o root).Reaches rules limit w ∧
        w.call? = some (phase, rule) ∧ w.node = node ∧ w.context = ctx := by
  obtain ⟨last, hlast, hends, _, _, _, hjournal⟩ :=
    reaches_last limit o rules hroot
  have hmem : .invoked phase rule node ctx ∈
      (rewrite limit o rules root).journal ↔
      .invoked phase rule node ctx ∈ last.journal := by
    rw [hjournal, List.mem_append]
    split <;> simp
  rw [hmem]
  constructor
  · exact hlast.exists_call rfl
  · rintro ⟨w, hw, hcall, rfl, rfl⟩
    exact hw.mem_journal hlast hends hcall

end Walker

/-- The context tells where a rule is.  The walker makes the pass, whether or
not the pass succeeds: its last state holds what the pass leaves, and its calls
are those of which the journal tells.  Whenever it calls a rule or an exit
action, the context tells where the node that is handed over stands in the tree,
as the tree is at that moment, and no change is pending. -/
theorem Walker.context_locates (limit : Nat) (o : RenderOptions)
    {rules : List Rule} {root : Node} (hroot : root.kind = .root)
    (hrules : ∀ rule ∈ rules, rule.KeepsKind) :
    let begins := Walker.start rules o root
    let pass := rewrite limit o rules root
    (∃ last, begins.Reaches rules limit last ∧ last.step rules limit = none ∧
      last.tree = pass.root ∧ last.stage = .ended pass.verdict) ∧
    (∀ phase rule node ctx, .invoked phase rule node ctx ∈ pass.journal ↔
      ∃ w, begins.Reaches rules limit w ∧ w.call? = some (phase, rule) ∧
        w.node = node ∧
        w.context = ctx) ∧
    ∀ w, begins.Reaches rules limit w → w.call? ≠ none →
      w.context.Locates w.tree w.node w.path := by
  intro begins pass
  refine ⟨Walker.exists_last limit o rules hroot,
    Walker.invoked_mem_iff limit o rules hroot, fun w hw hcall => ?_⟩
  have hsound := hw.sound hrules
  exact Walker.locates hsound (hsound.describes hcall)

/-- Behind a comment that has been removed, a text has moved to the first place,
and there the context shows it. -/
theorem Walker.context_locates_moved :
    let zero : Span := ⟨0, 0⟩
    let rule :=
      Recipe.toRule ⟨"r", { kind := some .comment }, [⟨.remove, false⟩], none⟩
    let text := Node.text "t" zero none
    let root := Node.root [.comment "c" zero none, text] zero none
    ∃ w, (Walker.start [rule] {} root).Reaches [rule] 2 w ∧
      w.call? = some (.enter, 0) ∧
      w.node = text ∧ w.context.childIndex = 0 ∧
      w.context.Locates w.tree w.node w.path := by
  intro zero rule text root
  have hrules : ∀ r ∈ [rule], r.KeepsKind := by
    intro r hr
    rw [List.mem_singleton.mp hr]
    exact Recipe.toRule_keepsKind _
  let ctx : Context := ⟨some .text, some .root, 0, 1, none, 1, {}⟩
  have hentry : (rewrite 2 {} [rule] root).journal[8]? =
      some (.invoked .enter 0 text ctx) := by
    cbv
  obtain ⟨_, hcalls, hlocates⟩ :=
    Walker.context_locates 2 {} (show root.kind = .root from rfl) hrules
  obtain ⟨w, hw, hcall, hnode, hctx⟩ :=
    (hcalls _ _ _ _).mp (List.mem_of_getElem? hentry)
  exact ⟨w, hw, hcall, hnode, by rw [hctx], hlocates w hw (by simp [hcall])⟩

end MarkupTemplate
