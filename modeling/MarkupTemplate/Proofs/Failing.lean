/-
A rule that fails ends the pass.  Its call is the last one, and the change that
it has asked for is not made.  What has been visited before stays as it was
left, and what has not been visited yet, beside the node and beside each node
above it, stays as it was when the rules had arrived at the node that holds it.
-/
import MarkupTemplate.Proofs.Requests

namespace MarkupTemplate

/-- Numbered actions called one after another on a node until one fails: the
calls before that one, the call that fails, and the node as it then is.
Whatever the last call has asked for, the node is the one that it was handed, as
it has edited it.  No action behind it is called. -/
inductive FailedCalls {α : Type} (phase : Phase) (cause : RewriteError) :
    List (Nat × Handler α) → Node → List Call → Call → Node → Prop where
  | failed {index : Nat} {action : Handler α} {later : List (Nat × Handler α)}
      {past : List Entry} {node : Node} {ctx : Context}
      (herror : (action past node ctx).outcome = .error cause)
      (hkind : (action past node ctx).node.kind = node.kind) :
      FailedCalls phase cause ((index, action) :: later) node []
        ⟨phase, index, past, node, ctx⟩ (action past node ctx).node
  | kept {index : Nat} {action : Handler α} {later : List (Nat × Handler α)}
      {past : List Entry} {node next left : Node} {ctx : Context} {value : α}
      {calls : List Call} {last : Call}
      (hok : (action past node ctx).outcome = .ok value)
      (hleft : (action past node ctx).left? ctx = some next)
      (hlater : FailedCalls phase cause later next calls last left) :
      FailedCalls phase cause ((index, action) :: later) node
        (⟨phase, index, past, node, ctx⟩ :: calls) last left

/-- The visit of a node in which a call fails: the calls before it, the call,
and what it leaves of the node. -/
inductive Broken (rules : List Rule) (cause : RewriteError) :
    Node → List Call → Call → Node → Prop where
  /-- A rule fails on arrival. -/
  | onArrival {node left : Node} {arrivals : List Call} {last : Call}
      (harrive : FailedCalls .enter cause
        (numbered 0 rules) node arrivals last left) :
      Broken rules cause node arrivals last left
  /-- The call fails in the visit of a child.  The children before it have been
  visited, and those behind it are still as they were on arrival. -/
  | inside {node entered child left : Node} {earlier later lefts : List Node}
      {arrivals calls within : List Call} {last : Call}
      (harrive : Calls .enter (numbered 0 rules) node arrivals (some entered))
      (hchildren : entered.children = earlier ++ child :: later)
      (hearlier : Blocks rules earlier calls lefts)
      (hbroken : Broken rules cause child within last left) :
      Broken rules cause node (arrivals ++ calls ++ within) last
        (entered.withChildren (lefts ++ left :: later))
  /-- An exit action fails when all children have been visited. -/
  | onLeaving {node entered left : Node} {children : List Node}
      {arrivals below departures : List Call} {last : Call}
      (harrive : Calls .enter (numbered 0 rules) node arrivals (some entered))
      (hbelow : Blocks rules entered.children below children)
      (hleave : FailedCalls .exit cause
        (arrivals.filterMap (Call.exit? rules)).reverse
        (entered.withChildren children) departures last left) :
      Broken rules cause node (arrivals ++ below ++ departures) last left

variable {rules : List Rule} {cause : RewriteError}

/-- A rule after which the pass has failed has failed itself, and leaves the
node as it has edited it. -/
theorem Reply.settle_failed {α : Type} {reply : Reply α} {ctx : Context}
    {entry : Entry} (h : (reply.settle ctx entry).verdict = .failed cause) :
    reply.outcome = .error cause ∧
      (reply.settle ctx entry).node = reply.node := by
  unfold settle at h ⊢
  simp only at h ⊢
  split at h
  · next houtcome =>
      rw [houtcome, Verdict.failed.inj h]
      exact ⟨rfl, rfl⟩
  · contradiction
  · contradiction
  · contradiction

/-- The calls of a visit are those of actions of which one fails. -/
def Visit.Fails {α : Type} (phase : Phase) (cause : RewriteError)
    (actions : List (Nat × Handler α)) (past : List Entry) (node : Node)
    (v : Visit) : Prop :=
  ∃ calls last, v.calls past = calls ++ [last] ∧
    FailedCalls phase cause actions node calls last v.node

/-- A visit that goes on with another one if the node is kept. -/
def Visit.andThen (v later : Visit) : Visit :=
  match v.verdict with
  | .kept => later.after v.journal
  | _ => v

/-- If a call and those behind it fail, the call does, or it keeps the node and
those behind it fail. -/
theorem fails_andThen {α : Type} {phase : Phase} {index : Nat}
    {action : Handler α} {later : List (Nat × Handler α)} {past : List Entry}
    {node : Node} {ctx : Context} {v rest : Visit}
    (hv : (action past node ctx).settle ctx (.invoked phase index node ctx) = v)
    (hkind : (action past node ctx).node.kind = node.kind)
    (hrest : rest.verdict = .failed cause →
      rest.Fails phase cause later (v.journal.reverse ++ past) v.node)
    (h : (v.andThen rest).verdict = .failed cause) :
    (v.andThen rest).Fails phase cause
      ((index, action) :: later) past node := by
  have hcalls := (action past node ctx).calls_settle ctx phase index past node
  rw [hv] at hcalls
  by_cases hkept : v.verdict = .kept
  · have hcompletes : ((action past node ctx).settle ctx
        (.invoked phase index node ctx)).Completes := by
      rw [hv]
      exact .inl hkept
    obtain ⟨value, hok, hleft⟩ :=
      (action past node ctx).left?_settle ctx hcompletes
    rw [hv, Visit.left?_of_kept hkept] at hleft
    simp only [Visit.andThen, hkept] at h ⊢
    obtain ⟨calls, last, hlater, hfails⟩ := hrest h
    refine ⟨⟨phase, index, past, node, ctx⟩ :: calls, last, ?_,
      .kept hok hleft.symm hfails⟩
    rw [Visit.calls_after, ← Visit.calls, hcalls, hlater]
    rfl
  · simp only [Visit.andThen] at h ⊢
    subst hv
    obtain ⟨herror, hnode⟩ := Reply.settle_failed h
    refine ⟨[], _, hcalls, ?_⟩
    rw [hnode]
    exact .failed herror hkind

theorem fails_runExits {exits : List (Nat × ExitAction)} {past : List Entry}
    {node : Node} {ctx : Context} (hexits : ∀ exit ∈ exits, keepsKind exit.2)
    (h : (runExits exits past node ctx).verdict = .failed cause) :
    (runExits exits past node ctx).Fails .exit cause exits past node := by
  induction exits generalizing past node ctx with
  | nil => simp [runExits] at h
  | cons exit exits ih =>
      obtain ⟨index, action⟩ := exit
      apply fails_andThen rfl
        (hexits (index, action) List.mem_cons_self past node ctx) _ h
      exact ih fun exit hexit => hexits exit (List.mem_cons_of_mem _ hexit)

theorem enterRules_cons (index : Nat) (rule : Rule) (later : List Rule)
    (past : List Entry) (node : Node) (ctx : Context) :
    let v := (rule.enter past node ctx).settle ctx
      (.invoked .enter index node ctx)
    (enterRules index (rule :: later) past node ctx).1 =
      v.andThen (enterRules (index + 1) later (v.journal.reverse ++ past)
        v.node v.context).1 := by
  intro v
  rw [enterRules, Visit.andThen]
  generalize hv : (rule.enter past node ctx).settle ctx
    (.invoked .enter index node ctx) = first
  rw [show v = first from hv]
  cases first.verdict <;> rfl

theorem fails_enterRules {later : List Rule} {index : Nat} {past : List Entry}
    {node : Node} {ctx : Context} (hrules : ∀ rule ∈ later, rule.KeepsKind)
    (h : (enterRules index later past node ctx).1.verdict = .failed cause) :
    (enterRules index later past node ctx).1.Fails .enter cause
      (numbered index later) past node := by
  induction later generalizing index past node ctx with
  | nil => simp [enterRules] at h
  | cons rule later ih =>
      rw [enterRules_cons] at h ⊢
      apply fails_andThen rfl
        ((hrules rule List.mem_cons_self).enter past node ctx) _ h
      exact ih fun r hr => hrules r (List.mem_cons_of_mem _ hr)

/-- The visits of children of which one fails: those before it have come to
their end, and those behind it do not begin. -/
theorem broken_visitAll {visitOne : List Entry → Node → Context → Visit}
    (hblock : ∀ past node ctx, (visitOne past node ctx).Completes →
      Block rules node ((visitOne past node ctx).calls past)
        (visitOne past node ctx).left?)
    (hbroken : ∀ past node ctx,
      (visitOne past node ctx).verdict = .failed cause →
      ∃ calls last, (visitOne past node ctx).calls past = calls ++ [last] ∧
        Broken rules cause node calls last (visitOne past node ctx).node)
    {parent : Kind} {index : Nat} {nodes : List Node} {past : List Entry}
    {ctx : Context}
    (h : (visitAll visitOne parent index nodes past ctx).verdict =
      .failed cause) :
    let all := visitAll visitOne parent index nodes past ctx
    ∃ earlier child later calls lefts within last left,
      nodes = earlier ++ child :: later ∧
      all.nodes = lefts ++ left :: later ∧
      callsFrom past all.journal = calls ++ within ++ [last] ∧
      Blocks rules earlier calls lefts ∧
      Broken rules cause child within last left := by
  induction nodes generalizing index past ctx with
  | nil => simp [visitAll] at h
  | cons node nodes ih =>
      intro all
      let here : Context := { ctx with
        parent := some parent, childIndex := index, depth := ctx.depth + 1 }
      by_cases hcompletes : (visitOne past node here).Completes
      · obtain ⟨next, hall⟩ := visitAll_cons_of_completes rfl hcompletes
        rw [hall] at h
        obtain ⟨earlier, child, later, calls, lefts, within, last, left, rfl,
          hnodes, hcalls, hearlier, hchild⟩ := ih h
        refine ⟨node :: earlier, child, later, _, _, within, last, left, rfl,
          ?_, ?_, .cons (hblock past node here hcompletes) hearlier, hchild⟩
        · rw [show all = _ from hall, hnodes, List.append_assoc]
        · rw [show all = _ from hall, callsFrom_append, hcalls,
            List.append_assoc, List.append_assoc, List.append_assoc]
          rfl
      · have hstops : all = _ := visitAll_cons_of_stopped rfl hcompletes
        rw [show visitAll visitOne parent index (node :: nodes) past ctx = _
          from hstops] at h
        obtain ⟨within, last, hcalls, hchild⟩ := hbroken past node here h
        rw [hstops]
        exact ⟨[], node, nodes, [], [], within, last, _, rfl, rfl, hcalls, .nil,
          hchild⟩

/-- An exit action that a rule has left keeps kinds if the rule does. -/
theorem Call.keepsKind_of_exit?
    (hrules : ∀ rule ∈ rules, rule.KeepsKind) {call : Call}
    {exit : Nat × ExitAction} (h : call.exit? rules = some exit) :
    keepsKind exit.2 := by
  simp only [Call.exit?, Option.bind_eq_bind, Option.bind_eq_some_iff,
    Option.map_eq_some_iff] at h
  obtain ⟨rule, hrule, value, hvalue, action, rfl, rfl⟩ := h
  apply (hrules rule (List.mem_of_getElem? hrule)).exit call.past call.node
    call.context
  cases houtcome : (rule.enter call.past call.node call.context).outcome with
  | error => simp [houtcome, Except.toOption] at hvalue
  | ok result => simpa [houtcome, Except.toOption] using hvalue

/-- A visit in which a call fails. -/
theorem broken_visit (hrules : ∀ rule ∈ rules, rule.KeepsKind) {limit : Nat}
    {past : List Entry} {node : Node} {ctx : Context}
    (h : (visit rules limit past node ctx).verdict = .failed cause) :
    ∃ calls last,
      (visit rules limit past node ctx).calls past = calls ++ [last] ∧
      Broken rules cause node calls last
        (visit rules limit past node ctx).node := by
  induction limit generalizing past node ctx with
  | zero => simp [visit] at h
  | succ limit ih =>
      have hfails : (enterRules 0 rules
          (.visited node.kind ctx.depth ctx.childIndex :: past) node
          { ctx with current := some node.kind }).1.verdict =
            .failed cause → _ :=
        fails_enterRules hrules
      generalize henter : enterRules 0 rules
        (.visited node.kind ctx.depth ctx.childIndex :: past) node
        { ctx with current := some node.kind } = result at hfails
      obtain ⟨entered, exits⟩ := result
      by_cases hentered : entered.verdict = .kept
      · obtain ⟨harrive, hcollected⟩ :=
          calls_enterRules rules.drop_zero _ node _ henter (.inl hentered)
        rw [Visit.left?_of_kept hentered] at harrive
        obtain rfl := hcollected hentered
        generalize hvisits : visitAll (visit rules limit) entered.node.kind 0
          entered.node.children (entered.journal.reverse ++ _ :: past)
          entered.context = below
        by_cases hbelow : below.verdict = .kept
        · -- all children have been visited, so an exit action has failed
          rw [visit_eq_of_kept henter hentered hvisits hbelow] at h ⊢
          have hblocks := blocks_visitAll (block_visit rules limit)
            entered.node.kind 0 entered.node.children _ entered.context
            (by rw [hvisits, hbelow])
          rw [hvisits] at hblocks
          obtain ⟨departures, last, hcalls, hleave⟩ := fails_runExits (by
            intro exit hexit
            obtain ⟨call, _, hcall⟩ :=
              List.mem_filterMap.mp (List.mem_reverse.mp hexit)
            exact Call.keepsKind_of_exit? hrules hcall) h
          refine ⟨_, last, ?_, .onLeaving harrive hblocks hleave⟩
          rw [Visit.calls_after, hcalls, callsFrom_visited, callsFrom_append,
            ← Visit.calls]
          simp only [List.append_assoc]
        · -- the failure of a child is handed up, and no exit action runs
          rw [visit_eq_of_stopped henter hentered hvisits hbelow] at h ⊢
          subst hvisits
          obtain ⟨earlier, child, later, calls, lefts, within, last, left,
            hchildren, hnodes, hcalls, hearlier, hchild⟩ :=
            broken_visitAll (block_visit rules limit)
              (fun past node ctx h => ih h) h
          have hbroken := Broken.inside harrive hchildren hearlier hchild
          refine ⟨_, last, ?_, hnodes ▸ hbroken⟩
          rw [Visit.calls, callsFrom_visited, callsFrom_append, hcalls,
            ← Visit.calls]
          simp only [List.append_assoc]
      · rw [visit_eq_of_not_kept henter hentered] at h ⊢
        obtain ⟨calls, last, hcalls, harrive⟩ := hfails h
        exact ⟨calls, last, hcalls, .onArrival harrive⟩

namespace Walker

variable {limit : Nat} {w : Walker}

/-- Rules that keep kinds keep that of the node that they are handed. -/
theorem Sound.kind_answer (hw : w.Sound) {reply : Reply Unit}
    (hanswer : w.answer? = some reply) : reply.node.kind = w.node.kind := by
  have horiented := hw.oriented
  unfold answer? at hanswer
  split at hanswer
  · next rule _ _ hstage =>
      simp only [Oriented, hstage] at horiented
      obtain rfl := Option.some.inj hanswer
      exact (horiented.2.1 rule List.mem_cons_self).enter _ w.node w.context
  · next index action _ hstage =>
      simp only [Oriented, hstage] at horiented
      obtain rfl := Option.some.inj hanswer
      exact horiented.2 (index, action) List.mem_cons_self _ w.node w.context
  · contradiction

/-- The top keeps its kind in a pass of rules that keep kinds. -/
theorem Reaches.kind_tree {o : RenderOptions} {root : Node}
    (hrules : ∀ rule ∈ rules, rule.KeepsKind)
    (h : (start rules o root).Reaches rules limit w) :
    w.tree.kind = root.kind := by
  induction h using Machine.Reaches.follow with
  | refl => rfl
  | @tail v t hv hstep ih =>
      rcases (Reaches.poised hv).step_top hstep with
        ⟨habove, reply, hanswer, htree⟩ | hsame
      · rw [htree, (Reaches.sound hrules hv).kind_answer hanswer,
          ← ih, tree, habove]
        rfl
      · rw [hsame, Node.kind_withChildren, ih]

end Walker

theorem rewrite_eq_of_failed {limit : Nat} {o : RenderOptions} {root : Node}
    (hroot : root.kind = .root)
    (hfailed : (visit rules limit [] root
      { ruleCount := rules.length, options := o }).verdict = .failed cause) :
    let v := visit rules limit [] root
      { ruleCount := rules.length, options := o }
    rewrite limit o rules root = ⟨v.node, v.journal, .failed cause⟩ := by
  rw [rewrite, if_neg (not_not_intro hroot)]
  simp only [hfailed]

/-- In a pass over a root that fails, the call that fails is the last one, and
the tree is as `Broken` says.  The top is still a root. -/
theorem rewrite_broken (limit : Nat) (o : RenderOptions) {root : Node}
    (hroot : root.kind = .root) (hrules : ∀ rule ∈ rules, rule.KeepsKind)
    (hfailed : (rewrite limit o rules root).verdict = .failed cause) :
    let pass := rewrite limit o rules root
    (∃ calls last, callsFrom [] pass.journal = calls ++ [last] ∧
      Broken rules cause root calls last pass.root) ∧
      pass.root.kind = .root := by
  intro pass
  constructor
  · rw [verdict_rewrite limit o rules hroot] at hfailed
    have hpass : pass = _ := rewrite_eq_of_failed hroot hfailed
    rw [hpass]
    exact broken_visit hrules hfailed
  · obtain ⟨last, hlast, _, habove, hnode, _⟩ :=
      Walker.reaches_last limit o rules hroot
    have hkind := hlast.kind_tree hrules
    rw [Walker.tree, habove, hroot] at hkind
    rw [show pass.root = _ from hnode.symm]
    exact hkind

/-- Rules remove the outer comment and put an interpolation in the place of the
first inner text, and then one fails at the inner comment, behind the removal
that it has asked for.  That comment stays, and so do the texts behind it and
behind the element; the exit action that would remove the element does not
run. -/
theorem rewrite_broken_nested :
    let zero : Span := ⟨0, 0⟩
    let other := Node.interpolation "i" zero none
    let rules :=
      [Recipe.toRule ⟨"a", { kind := some .comment, depth := some 1 },
        [⟨.remove, false⟩], none⟩,
      Recipe.toRule
        ⟨"b", { kind := some .text, depth := some 2, index := some 0 },
          [⟨.replace other, false⟩], none⟩,
      Recipe.toRule ⟨"c", { kind := some .comment, depth := some 2 },
        [⟨.remove, false⟩, ⟨.replace other, false⟩], none⟩,
      Recipe.toRule ⟨"d", { kind := some .element }, [],
        some [⟨.remove, false⟩]⟩]
    let inner :=
      [Node.text "x" zero none, .comment "b" zero none, .text "y" zero none]
    let root :=
      Node.root [.comment "a" zero none, .element "p" [] inner false zero none,
        .text "z" zero none] zero none
    let pass := rewrite 3 {} rules root
    pass.verdict = .failed .nodeRemoved ∧
      (∃ calls last, callsFrom [] pass.journal = calls ++ [last] ∧
        Broken rules .nodeRemoved root calls last pass.root) ∧
      pass.root.outline =
        "Root\n--Element: p\n----Interpolation: i\n----Comment: b\n" ++
        "----Text: y\n--Text: z\n" := by
  intro zero other rules inner root pass
  have hverdict : (rewrite 3 {} rules root).verdict = .failed .nodeRemoved := by
    decide +kernel
  have hrules : ∀ rule ∈ rules, rule.KeepsKind := by
    simp [rules, Recipe.toRule_keepsKind]
  exact ⟨hverdict, (rewrite_broken 3 {} rfl hrules hverdict).1,
    by decide +kernel⟩

end MarkupTemplate
