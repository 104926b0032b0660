/-
The calls of a pass are well bracketed.  The calls that belong to the visit of a
node are the rules on arrival, one after another, then the calls of the visits
below it, one visit for each child that the node then has, and then the exit
actions that the rules have left, the last one first.  A removal ends the calls
on its node, and nothing else does in a pass that succeeds.
-/
import MarkupTemplate.Rewrite.Recipe
import MarkupTemplate.Proofs.Visiting

namespace MarkupTemplate

/-- A call of a rule or of an exit action, with what it is handed. -/
structure Call where
  phase : Phase
  rule : Nat
  past : List Entry
  node : Node
  context : Context

/-- The calls of which a journal tells.  Each is handed what has happened before
it, the latest first, and `past` is what came before the journal. -/
def callsFrom (past : List Entry) : List Entry → List Call
  | [] => []
  | entry :: later =>
      match entry with
      | .invoked phase rule node context =>
          ⟨phase, rule, past, node, context⟩ :: callsFrom (entry :: past) later
      | _ => callsFrom (entry :: past) later

/-- What stands in the place of the node when the changes that were asked for
have been made: nothing if the node is removed. -/
def Reply.left? {α : Type} (reply : Reply α) (ctx : Context) : Option Node :=
  match (ctx.perform reply.acts).1.pending with
  | none => some reply.node
  | some (.replace node) => some node
  | some .remove => none

/-- Numbered actions called one after another on a node.  Each is handed what
the one before it has left.  All of them are called, unless one removes the
node: then the calls end right behind that one. -/
inductive Calls {α : Type} (phase : Phase) :
    List (Nat × Handler α) → Node → List Call → Option Node → Prop where
  | nil {node : Node} : Calls phase [] node [] (some node)
  | removed {index : Nat} {action : Handler α} {later : List (Nat × Handler α)}
      {past : List Entry} {node : Node} {ctx : Context} {value : α}
      (hok : (action past node ctx).outcome = .ok value)
      (hleft : (action past node ctx).left? ctx = none) :
      Calls phase ((index, action) :: later) node
        [⟨phase, index, past, node, ctx⟩] none
  | kept {index : Nat} {action : Handler α} {later : List (Nat × Handler α)}
      {past : List Entry} {node next : Node} {ctx : Context} {value : α}
      {calls : List Call} {left : Option Node}
      (hok : (action past node ctx).outcome = .ok value)
      (hleft : (action past node ctx).left? ctx = some next)
      (hlater : Calls phase later next calls left) :
      Calls phase ((index, action) :: later) node
        (⟨phase, index, past, node, ctx⟩ :: calls) left

def numbered (index : Nat) (rules : List Rule) :
    List (Nat × Handler (Option ExitAction)) :=
  (rules.zipIdx index).map fun p => (p.2, p.1.enter)

/-- The exit action that a rule has left when it was called, with the number of
the rule. -/
def Call.exit? (rules : List Rule) (call : Call) :
    Option (Nat × ExitAction) := do
  let rule ← rules[call.rule]?
  let exit ← (rule.enter call.past call.node call.context).outcome.toOption
  exit.map (call.rule, ·)

mutual

/-- The calls that belong to the visit of a node, and what the visit leaves of
it. -/
inductive Block (rules : List Rule) :
    Node → List Call → Option Node → Prop where
  /-- A rule removes the node on arrival.  No rule behind it is called, nothing
  below the node is visited, and no exit action runs. -/
  | removed {node : Node} {arrivals : List Call}
      (harrive : Calls .enter (numbered 0 rules) node arrivals none)
      (hnumbers : arrivals.map (·.rule) = List.range arrivals.length) :
      Block rules node arrivals none
  /-- All rules are called on arrival, the children that the node then has are
  visited, and the exit actions run that its rules have left. -/
  | visited {node entered : Node} {arrivals below departures : List Call}
      {children : List Node}
      {left : Option Node}
      (harrive : Calls .enter (numbered 0 rules) node arrivals (some entered))
      (hnumbers : arrivals.map (·.rule) = List.range rules.length)
      (hbelow : Blocks rules entered.children below children)
      (hleave : Calls .exit (arrivals.filterMap (Call.exit? rules)).reverse
        (entered.withChildren children) departures left)
      (hdecreasing : (departures.map (·.rule)).Pairwise (· > ·)) :
      Block rules node (arrivals ++ below ++ departures) left

/-- The calls of visits one after another, one for each node in order, and the
nodes that are left. -/
inductive Blocks (rules : List Rule) :
    List Node → List Call → List Node → Prop where
  | nil : Blocks rules [] [] []
  | cons {node : Node} {nodes lefts : List Node} {first later : List Call}
      {left : Option Node}
      (hfirst : Block rules node first left)
      (hlater : Blocks rules nodes later lefts) :
      Blocks rules (node :: nodes) (first ++ later) (left.toList ++ lefts)

end

namespace Calls

variable {α : Type} {phase : Phase} {actions : List (Nat × Handler α)}
  {node : Node} {calls : List Call}

theorem map_rule_isPrefix {left : Option Node}
    (h : Calls phase actions node calls left) :
    calls.map (·.rule) <+: actions.map (·.1) := by
  induction h with
  | nil => exact List.prefix_refl _
  | removed => simp
  | kept _ _ _ ih => simpa using ih

theorem map_rule_eq {left : Node}
    (h : Calls phase actions node calls (some left)) :
    calls.map (·.rule) = actions.map (·.1) := by
  generalize hsome : some left = last at h
  induction h with
  | nil => rfl
  | removed => contradiction
  | kept _ _ _ ih => simp [ih hsome]

end Calls

theorem map_fst_numbered (index : Nat) (rules : List Rule) :
    (numbered index rules).map (·.1) = List.range' index rules.length := by
  rw [numbered, List.map_map, ← List.zipIdx_map_snd]
  rfl

/-- Rules leave exit actions in the order in which they are called. -/
theorem Call.map_exit?_sublist (rules : List Rule) (calls : List Call) :
    ((calls.filterMap (Call.exit? rules)).map (·.1)).Sublist
      (calls.map (·.rule)) := by
  induction calls with
  | nil => exact List.Sublist.slnil
  | cons call calls ih =>
      cases hexit : call.exit? rules with
      | none =>
          rw [List.filterMap_cons_none hexit]
          exact ih.cons _
      | some exit =>
          have hrule : exit.1 = call.rule := by
            simp only [Call.exit?, Option.bind_eq_bind, Option.bind_eq_some_iff,
              Option.map_eq_some_iff] at hexit
            obtain ⟨_, _, _, _, _, _, rfl⟩ := hexit
            rfl
          rw [List.filterMap_cons_some hexit, List.map_cons,
            List.map_cons, hrule]
          exact ih.cons_cons _

theorem callsFrom_append (past first later : List Entry) :
    callsFrom past (first ++ later) =
      callsFrom past first ++ callsFrom (first.reverse ++ past) later := by
  induction first generalizing past with
  | nil => rfl
  | cons entry first ih => cases entry <;> simp [callsFrom, ih]

theorem callsFrom_visited (past : List Entry) (kind : Kind) (depth index : Nat)
    (later : List Entry) :
    callsFrom past (.visited kind depth index :: later) =
      callsFrom (.visited kind depth index :: past) later := rfl

theorem callsFrom_eq_nil {entries : List Entry}
    (h : ∀ phase rule node ctx, .invoked phase rule node ctx ∉ entries)
    (past : List Entry) : callsFrom past entries = [] := by
  induction entries generalizing past with
  | nil => rfl
  | cons entry entries ih =>
      have hlater := ih fun phase rule node ctx hmem =>
        h phase rule node ctx (List.mem_cons_of_mem _ hmem)
      cases entry with
      | invoked phase rule node ctx =>
          exact absurd List.mem_cons_self (h phase rule node ctx)
      | _ => exact hlater _

def Visit.calls (past : List Entry) (v : Visit) : List Call :=
  callsFrom past v.journal

namespace Reply

variable {α : Type} (reply : Reply α) (ctx : Context)

theorem calls_settle (phase : Phase) (index : Nat) (past : List Entry)
    (node : Node) :
    (reply.settle ctx (.invoked phase index node ctx)).calls past =
      [⟨phase, index, past, node, ctx⟩] := by
  rw [Visit.calls, reply.journal_settle, callsFrom,
    callsFrom_eq_nil (ctx.perform_not_invoked reply.acts)]

/-- A rule after which the pass goes on has not failed, and it has left what it
asked for. -/
theorem left?_settle {entry : Entry} (h : (reply.settle ctx entry).Completes) :
    ∃ value, reply.outcome = .ok value ∧
      (reply.settle ctx entry).left? = reply.left? ctx := by
  unfold Visit.Completes settle at h
  unfold Visit.left? settle left?
  simp only at h ⊢
  split at h
  · simp at h
  · next value hok hpending => exact ⟨value, hok, by simp [hpending]⟩
  · next value _ hok hpending => exact ⟨value, hok, by simp [hpending]⟩
  · next value hok hpending => exact ⟨value, hok, by simp [hpending]⟩

end Reply

namespace Visit

theorem calls_after (v : Visit) (past entries : List Entry) :
    (v.after entries).calls past =
      callsFrom past entries ++ v.calls (entries.reverse ++ past) :=
  callsFrom_append past entries v.journal

theorem left?_after (v : Visit) (entries : List Entry) :
    (v.after entries).left? = v.left? := rfl

end Visit

theorem calls_runExits (exits : List (Nat × ExitAction)) (past : List Entry)
    (node : Node) (ctx : Context)
    (h : (runExits exits past node ctx).Completes) :
    Calls .exit exits node ((runExits exits past node ctx).calls past)
      (runExits exits past node ctx).left? := by
  induction exits generalizing past node ctx with
  | nil => exact .nil
  | cons exit exits ih =>
      obtain ⟨index, action⟩ := exit
      have hcalls :=
        (action past node ctx).calls_settle ctx .exit index past node
      have hleft : ((action past node ctx).settle ctx
          (.invoked .exit index node ctx)).Completes → _ :=
        (action past node ctx).left?_settle ctx
      rw [runExits] at h ⊢
      generalize (action past node ctx).settle ctx
        (.invoked .exit index node ctx) = v at *
      by_cases hkept : v.verdict = .kept
      · simp only [hkept] at h ⊢
        obtain ⟨value, hok, hleft⟩ := hleft (.inl hkept)
        rw [Visit.left?_of_kept hkept] at hleft
        rw [Visit.calls_after, ← Visit.calls, hcalls]
        exact .kept hok hleft.symm (ih _ v.node v.context h)
      · simp only at h ⊢
        obtain ⟨value, hok, hleft⟩ := hleft h
        rw [Visit.left?_of_not_kept hkept] at hleft ⊢
        rw [hcalls]
        exact .removed hok hleft.symm

/-- The rules are called in order, and the exit actions that come back are those
that they have left in these calls. -/
theorem calls_enterRules {rules later : List Rule} {index : Nat}
    (hlater : rules.drop index = later) (past : List Entry) (node : Node)
    (ctx : Context) {v : Visit} {exits : List (Nat × ExitAction)}
    (henter : enterRules index later past node ctx = (v, exits))
    (h : v.Completes) :
    Calls .enter (numbered index later) node (v.calls past) v.left? ∧
      (v.verdict = .kept →
        exits = (v.calls past).filterMap (Call.exit? rules)) := by
  induction later generalizing index past node ctx v exits with
  | nil =>
      obtain ⟨rfl, rfl⟩ := Prod.mk.inj henter
      exact ⟨.nil, fun _ => rfl⟩
  | cons rule later ih =>
      have hrule : rules[index]? = some rule := by
        rw [← List.head?_drop, hlater, List.head?_cons]
      have hbehind : rules.drop (index + 1) = later := by
        rw [← List.tail_drop, hlater, List.tail_cons]
      have hcalls := (rule.enter past node ctx).calls_settle ctx .enter index
        past node
      have hleft : ((rule.enter past node ctx).settle ctx
          (.invoked .enter index node ctx)).Completes → _ :=
        (rule.enter past node ctx).left?_settle ctx
      rw [enterRules] at henter
      generalize (rule.enter past node ctx).settle ctx
        (.invoked .enter index node ctx) = first at *
      by_cases hkept : first.verdict = .kept
      · simp only [hkept] at henter
        generalize hnext : enterRules (index + 1) later _ first.node
          first.context = next at henter
        obtain ⟨last, more⟩ := next
        obtain ⟨rfl, rfl⟩ := Prod.mk.inj henter
        obtain ⟨value, hok, hleft⟩ := hleft (.inl hkept)
        obtain ⟨hlast, hmore⟩ := ih hbehind _ first.node first.context hnext h
        rw [Visit.left?_of_kept hkept] at hleft
        rw [Visit.calls_after, ← Visit.calls, hcalls]
        refine ⟨.kept hok hleft.symm hlast, fun hverdict => ?_⟩
        rw [List.filterMap_append, ← hmore hverdict]
        cases value with
        | none => simp [Call.exit?, hrule, hok, Except.toOption]
        | some action => simp [Call.exit?, hrule, hok, Except.toOption]
      · simp only at henter
        obtain ⟨rfl, rfl⟩ := Prod.mk.inj henter
        obtain ⟨value, hok, hleft⟩ := hleft h
        rw [Visit.left?_of_not_kept hkept] at hleft ⊢
        rw [hcalls]
        exact ⟨.removed hok hleft.symm, fun hverdict => absurd hverdict hkept⟩

theorem blocks_visitAll {rules : List Rule}
    {visitOne : List Entry → Node → Context → Visit}
    (hone : ∀ past node ctx, (visitOne past node ctx).Completes →
      Block rules node ((visitOne past node ctx).calls past)
        (visitOne past node ctx).left?)
    (parent : Kind) (index : Nat) (nodes : List Node) (past : List Entry)
    (ctx : Context)
    (h : (visitAll visitOne parent index nodes past ctx).verdict = .kept) :
    let all := visitAll visitOne parent index nodes past ctx
    Blocks rules nodes (callsFrom past all.journal) all.nodes := by
  induction nodes generalizing index past ctx with
  | nil => exact .nil
  | cons node nodes ih =>
      obtain ⟨hcompletes, next, hlater, hall⟩ := visitAll_cons_of_kept h
      intro all
      rw [show all = _ from hall, callsFrom_append]
      exact .cons (hone past node _ hcompletes) (ih next _ _ hlater)

theorem eq_range_of_isPrefix {numbers : List Nat} {n : Nat}
    (h : numbers <+: List.range n) : numbers = List.range numbers.length := by
  have hle := h.length_le
  rw [List.length_range] at hle
  conv_lhs =>
    rw [List.prefix_iff_eq_take.mp h, List.take_range, Nat.min_eq_left hle]

/-- Exit actions run in decreasing order of their rules. -/
theorem Calls.pairwise_departures {rules : List Rule} {node : Node}
    {left : Option Node} {arrivals departures : List Call} {n : Nat}
    (hnumbers : arrivals.map (·.rule) = List.range n)
    (h : Calls .exit (arrivals.filterMap (Call.exit? rules)).reverse node
      departures left) :
    (departures.map (·.rule)).Pairwise (· > ·) := by
  have hexits := Call.map_exit?_sublist rules arrivals
  rw [hnumbers] at hexits
  have hreversed :
      ((arrivals.filterMap (Call.exit? rules)).reverse.map (·.1)).Pairwise
      (· > ·) := by
    rw [List.map_reverse, List.pairwise_reverse]
    exact List.pairwise_lt_range.sublist hexits
  exact hreversed.sublist h.map_rule_isPrefix.sublist

/-- The calls of a visit that neither fails nor goes too deep. -/
theorem block_visit (rules : List Rule) (limit : Nat) (past : List Entry)
    (node : Node) (ctx : Context)
    (h : (visit rules limit past node ctx).Completes) :
    Block rules node ((visit rules limit past node ctx).calls past)
      (visit rules limit past node ctx).left? := by
  induction limit generalizing past node ctx with
  | zero => simp [visit, Visit.Completes] at h
  | succ limit ih =>
      have hrange : (numbered 0 rules).map (·.1) = List.range rules.length := by
        rw [map_fst_numbered, List.range_eq_range']
      have hcourse := visit_course h
      generalize visit rules (limit + 1) past node ctx = v at hcourse ⊢
      cases hcourse with
      | @removed entered _ henter hentered =>
          obtain ⟨hcalls, _⟩ :=
            calls_enterRules rules.drop_zero _ node _ henter (.inr hentered)
          rw [Visit.left?_of_not_kept (by simp [hentered])] at hcalls
          have hprefix := hcalls.map_rule_isPrefix
          rw [hrange] at hprefix
          have hnumbers := eq_range_of_isPrefix hprefix
          rw [List.length_map] at hnumbers
          rw [Visit.left?_after, Visit.left?_of_not_kept (by simp [hentered])]
          exact .removed hcalls hnumbers
      | @left entered last exits below journal henter hentered hvisits hbelow
          hjournal hexits hlast =>
          obtain ⟨hcalls, hcollected⟩ :=
            calls_enterRules rules.drop_zero _ node _ henter (.inl hentered)
          rw [Visit.left?_of_kept hentered] at hcalls
          have hnumbers := hcalls.map_rule_eq
          rw [hrange] at hnumbers
          have hblocks := blocks_visitAll ih entered.node.kind 0
            entered.node.children _ entered.context (by rw [hvisits, hbelow])
          rw [hvisits] at hblocks
          have hleave : Calls .exit exits.reverse
              (entered.node.withChildren below.nodes)
              (last.calls (journal.reverse ++ past)) last.left? := by
            subst hexits
            exact calls_runExits _ _ _ _ hlast
          rw [hcollected hentered] at hleave
          rw [Visit.calls_after, hjournal, callsFrom_visited, callsFrom_append,
            ← hjournal]
          exact .visited hcalls hnumbers hblocks hleave
            (Calls.pairwise_departures hnumbers hleave)

/-- At the top no change is granted. -/
theorem Context.perform_top {ctx : Context} (hparent : ctx.parent = none)
    (acts : List Act) : (ctx.perform acts).1 = ctx := by
  fun_induction Context.perform ctx acts with
  | case1 => rfl
  | case2 _ request _ _ hask =>
      cases request <;> simp [Context.ask, hparent] at hask
  | case3 _ _ _ _ _ ih => exact ih hparent
  | case4 _ _ _ _ _ hperform ih => simpa [hperform] using ih hparent

section

variable {ctx : Context} (hparent : ctx.parent = none)
  (hpending : ctx.pending = none)

include hparent hpending

theorem Reply.settle_top {α : Type} (reply : Reply α) (entry : Entry) :
    (reply.settle ctx entry).context = ctx ∧
      (reply.settle ctx entry).verdict ≠ .removed := by
  cases houtcome : reply.outcome <;>
    simp [Reply.settle, Context.perform_top hparent, houtcome, hpending]

theorem enterRules_top (index : Nat) (rules : List Rule) (past : List Entry)
    (node : Node) :
    (enterRules index rules past node ctx).1.context = ctx ∧
      (enterRules index rules past node ctx).1.verdict ≠ .removed := by
  induction rules generalizing index past node with
  | nil => simp [enterRules]
  | cons rule rules ih =>
      have hsettle := (rule.enter past node ctx).settle_top hparent hpending
        (.invoked .enter index node ctx)
      rw [enterRules]
      split
      · rw [hsettle.1]
        exact ih _ _ _
      · exact hsettle

theorem runExits_top (exits : List (Nat × ExitAction)) (past : List Entry)
    (node : Node) : (runExits exits past node ctx).verdict ≠ .removed := by
  induction exits generalizing past node with
  | nil => simp [runExits]
  | cons exit exits ih =>
      obtain ⟨index, action⟩ := exit
      have hsettle := (action past node ctx).settle_top hparent hpending
        (.invoked .exit index node ctx)
      rw [runExits]
      split
      · rw [hsettle.1]
        exact ih _ _
      · exact hsettle.2

/-- The top of a tree is never removed. -/
theorem visit_top (rules : List Rule) (limit : Nat) (past : List Entry)
    (node : Node) : (visit rules limit past node ctx).verdict ≠ .removed := by
  intro hremoved
  cases limit with
  | zero => simp [visit] at hremoved
  | succ limit =>
      let here : Context := { ctx with current := some node.kind }
      let arrival := Entry.visited node.kind ctx.depth ctx.childIndex
      have hhere : here.parent = none := hparent
      obtain ⟨hcontext, harrive⟩ :=
        enterRules_top hhere hpending 0 rules (arrival :: past) node
      have hcourse := visit_course (.inr hremoved)
      generalize visit rules (limit + 1) past node ctx = v at hcourse hremoved
      cases hcourse with
      | removed henter hentered =>
          rw [show enterRules 0 rules _ node here = _ from henter] at harrive
          exact harrive hentered
      | @left entered _ _ _ _ henter hentered hvisits hbelow _ hexits _ =>
          rw [show enterRules 0 rules _ node here = _ from henter] at hcontext
          have hclear : entered.context.pending = none := by
            rw [hcontext]
            exact hpending
          have hinside := visitAll_keeps (P := fun ctx => ctx.pending = none)
            (fun _ _ _ _ _ h => h)
            (fun past child _ => visit_pending rules limit past child) _ 0 _ _
            hclear (by rw [hvisits, hbelow])
          rw [hvisits] at hinside
          subst hexits
          refine runExits_top ?_ ?_ _ _ _ hremoved
          · rw [hcontext]
            exact hparent
          · exact hinside

end

/-- The calls of a pass that comes to its end and does not fail are one block,
that of the top, and the top is left. -/
theorem rewrite_bracketed (limit : Nat) (o : RenderOptions)
    (rules : List Rule) (root : Node)
    (hfails : ∀ cause, (rewrite limit o rules root).verdict ≠ .failed cause)
    (hends : (rewrite limit o rules root).verdict ≠ .unfinished) :
    let pass := rewrite limit o rules root
    pass.verdict = .kept ∧
      Block rules root (callsFrom [] pass.journal) (some pass.root) := by
  intro pass
  by_cases hroot : root.kind = .root
  · let start : Context := { ruleCount := rules.length, options := o }
    have hstart : start.pending = none := rfl
    have hstays := visit_top rfl hstart rules limit [] root
    rw [verdict_rewrite limit o rules hroot] at hfails hends
    have hkept : (visit rules limit [] root start).verdict = .kept := by
      cases hverdict : (visit rules limit [] root start).verdict with
      | kept => rfl
      | removed => exact absurd hverdict hstays
      | failed cause => exact absurd hverdict (hfails cause)
      | unfinished => exact absurd hverdict hends
    have hblock := block_visit rules limit [] root start (.inl hkept)
    rw [Visit.left?_of_kept hkept] at hblock
    have hpass : pass = _ := rewrite_eq_of_kept hroot rfl hkept
    rw [hpass, callsFrom_append]
    exact ⟨rfl, (List.append_nil (Visit.calls [] _)).symm ▸ hblock⟩
  · have hpass : rewrite limit o rules root = _ := if_pos hroot
    exact absurd (by rw [hpass]) (hfails (.notRoot root.kind))

/-- The second rule removes a comment on arrival, so the third is not called on
it and the exit action of the first does not run; the third removes an element
on leaving, and there the exit action of the first does not run either. -/
theorem rewrite_bracketed_removals :
    let zero : Span := ⟨0, 0⟩
    let rules := [Recipe.toRule ⟨"a", {}, [], some []⟩,
      Recipe.toRule ⟨"b", { kind := some .comment }, [⟨.remove, false⟩], none⟩,
      Recipe.toRule ⟨"c", { kind := some .element }, [],
        some [⟨.remove, false⟩]⟩]
    let list := Node.element "p" [] [.text "t" zero none] false zero none
    let root := Node.root [.comment "c" zero none, list] zero none
    let pass := rewrite 3 {} rules root
    let calls := callsFrom [] pass.journal
    pass.verdict = .kept ∧ Block rules root calls (some pass.root) ∧
      calls.map (fun call => (call.phase, call.rule, call.node.kind)) =
        [(.enter, 0, .root), (.enter, 1, .root), (.enter, 2, .root),
          (.enter, 0, .comment), (.enter, 1, .comment),
          (.enter, 0, .element), (.enter, 1, .element), (.enter, 2, .element),
          (.enter, 0, .text), (.enter, 1, .text), (.enter, 2, .text),
          (.exit, 0, .text), (.exit, 2, .element), (.exit, 0, .root)] := by
  intro zero rules list root pass calls
  have hverdict : (rewrite 3 {} rules root).verdict = .kept := by decide +kernel
  obtain ⟨hkept, hblock⟩ :=
    rewrite_bracketed 3 {} rules root (by simp [hverdict]) (by simp [hverdict])
  exact ⟨hkept, hblock, by decide +kernel⟩

end MarkupTemplate
