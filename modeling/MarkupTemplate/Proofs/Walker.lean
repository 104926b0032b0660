/-
A pass as a machine.  The nodes above the one that is visited stand on a stack,
each with its children before and behind, so every state holds the whole tree as
it is at that moment.  One step calls one rule, goes down, goes on or goes up.
The machine does what `visit` does, and its states show where the pass stands
whenever a rule is called.
-/
import MarkupTemplate.Proofs.Machine
import MarkupTemplate.Proofs.Visiting

namespace MarkupTemplate

/-- A node one of whose children is visited: the node as its rules have left it
on arrival, with its exit actions and its own place, and its children before and
behind the one that is visited. -/
structure Ancestor where
  node : Node
  exits : List (Nat × ExitAction)
  parent : Option Kind
  childIndex : Nat
  before : List Node
  behind : List Node

/-- The node around the child that is visited. -/
def Ancestor.around (a : Ancestor) (child : Node) : Node :=
  a.node.withChildren (a.before ++ child :: a.behind)

/-- How far the visit of a node is. -/
inductive Stage where
  /-- The node comes up. -/
  | arriving
  /-- These rules are still to be called; the exit actions are of the others. -/
  | entering (index : Nat) (rules : List Rule) (exits : List (Nat × ExitAction))
  /-- What is below the node has been visited; these exit actions are still to
  run. -/
  | leaving (exits : List (Nat × ExitAction))
  | ended (verdict : Verdict)

/-- A walker in a tree: the nodes above the one that is visited, the innermost
first, the node, the context, how far the visit is, and what has happened. -/
structure Walker where
  above : List Ancestor
  node : Node
  context : Context
  stage : Stage
  journal : List Entry

namespace Walker

def start (rules : List Rule) (o : RenderOptions) (root : Node) : Walker :=
  ⟨[], root, { ruleCount := rules.length, options := o }, .arriving, []⟩

/-- Visit the next child of a node or, behind the last one, come back to the
node. -/
def goOn (a : Ancestor) (above : List Ancestor) (ctx : Context)
    (journal : List Entry) : Walker :=
  match a.behind with
  | [] =>
      ⟨above, a.node.withChildren a.before,
        { ctx with
          parent := a.parent
          childIndex := a.childIndex
          current := some a.node.kind },
        .leaving a.exits.reverse, journal⟩
  | child :: behind =>
      ⟨{ a with behind } :: above, child,
        { ctx with
          parent := some a.node.kind
          childIndex := a.before.length
          depth := ctx.depth + 1 },
        .arriving, journal⟩

/-- Go on when rules have been called; `next` is what comes if the node is
kept. -/
def settled (w : Walker) (v : Visit) (next : Stage) : Walker :=
  let stage := match v.verdict with
    | .kept => next
    | verdict => .ended verdict
  ⟨w.above, v.node, v.context, stage, w.journal ++ v.journal⟩

/-- One step of a pass of rules that goes at most `limit` levels deep, unless
the pass has ended. -/
def step (rules : List Rule) (limit : Nat) (w : Walker) : Option Walker :=
  match w.stage with
  | .arriving =>
      if limit ≤ w.above.length then some { w with stage := .ended .unfinished }
      else some { w with
        context := { w.context with current := some w.node.kind }
        stage := .entering 0 rules []
        journal := w.journal ++
          [.visited w.node.kind w.context.depth w.context.childIndex] }
  | .entering index (rule :: later) exits =>
      let reply := rule.enter w.journal.reverse w.node w.context
      let exit := (reply.outcome.toOption.bind id).toList.map ((index, ·))
      some (w.settled
        (reply.settle w.context (.invoked .enter index w.node w.context))
        (.entering (index + 1) later (exits ++ exit)))
  | .entering _ [] exits =>
      some (goOn
        ⟨w.node, exits, w.context.parent, w.context.childIndex, [],
          w.node.children⟩
        w.above w.context w.journal)
  | .leaving ((index, action) :: later) =>
      let reply := action w.journal.reverse w.node w.context
      some (w.settled
        (reply.settle w.context (.invoked .exit index w.node w.context))
        (.leaving later))
  | .leaving [] => some { w with stage := .ended .kept }
  | .ended verdict =>
      match w.above with
      | [] => none
      | a :: above =>
          let ctx := { w.context with depth := w.context.depth - 1 }
          match verdict with
          | .kept =>
              some (goOn { a with before := a.before ++ [w.node] } above ctx
                w.journal)
          | .removed => some (goOn a above ctx w.journal)
          | verdict =>
              some ⟨above, a.around w.node, ctx, .ended verdict, w.journal⟩

abbrev Reaches (rules : List Rule) (limit : Nat) : Walker → Walker → Prop :=
  Machine.Reaches (step rules limit)

variable {rules : List Rule} {limit : Nat} {t : Walker}

/-- Where the visit of a node ends. -/
def behindVisit (w : Walker) (v : Visit) : Walker :=
  ⟨w.above, v.node, v.context, .ended v.verdict, w.journal ++ v.journal⟩

theorem settled_of_not_kept (w : Walker) {v : Visit} (next : Stage)
    (h : v.verdict ≠ .kept) : w.settled v next = w.behindVisit v := by
  simp only [settled, behindVisit]

theorem reaches_runExits (exits : List (Nat × ExitAction)) (w : Walker)
    (hstage : w.stage = .leaving exits) :
    w.Reaches rules limit (w.behindVisit
      (runExits exits w.journal.reverse w.node w.context)) := by
  induction exits generalizing w with
  | nil =>
      apply Machine.Reaches.of_step
      simp [step, hstage, behindVisit, runExits]
  | cons exit exits ih =>
      obtain ⟨index, action⟩ := exit
      rw [runExits]
      generalize hv : (action w.journal.reverse w.node w.context).settle
        w.context (.invoked .exit index w.node w.context) = v
      have hstep : w.step rules limit =
          some (w.settled v (.leaving exits)) := by
        simp only [step, hstage, hv]
      refine (Machine.Reaches.of_step hstep).trans ?_
      by_cases hkept : v.verdict = .kept
      · have hlater :=
          ih (w.settled v (.leaving exits)) (by simp [settled, hkept])
        simpa [hkept, behindVisit, settled, Visit.after] using hlater
      · rw [settled_of_not_kept w _ hkept]
        simp only
        exact .refl

/-- The rules are called one after another; if all of them keep the node, the
machine has their exit actions. -/
theorem reaches_enterRules (later : List Rule) (index : Nat)
    (exits : List (Nat × ExitAction)) (w : Walker)
    (hstage : w.stage = .entering index later exits) :
    let entered :=
      enterRules index later w.journal.reverse w.node w.context
    w.Reaches rules limit
      (w.settled entered.1
        (.entering (index + later.length) [] (exits ++ entered.2))) := by
  induction later generalizing index exits w with
  | nil =>
      have hsame : w.settled ⟨w.node, w.context, [], .kept⟩
          (.entering (index + 0) [] (exits ++ [])) = w := by
        simp [settled, ← hstage]
      simp only [enterRules, List.length_nil, hsame]
      exact .refl
  | cons rule later ih =>
      simp only [enterRules]
      generalize hreply : rule.enter w.journal.reverse w.node w.context = reply
      generalize hv : reply.settle w.context
        (.invoked .enter index w.node w.context) = v
      generalize hexit :
        (reply.outcome.toOption.bind id).toList.map ((index, ·)) = exit
      have hstep : w.step rules limit =
          some (w.settled v (.entering (index + 1) later (exits ++ exit))) := by
        simp only [step, hstage, hreply, hv, hexit]
      refine (Machine.Reaches.of_step hstep).trans ?_
      by_cases hkept : v.verdict = .kept
      · have hlater := ih (index + 1) (exits ++ exit)
          (w.settled v (.entering (index + 1) later (exits ++ exit)))
          (by simp [settled, hkept])
        simp only [settled, hkept] at hlater ⊢
        simpa [Visit.after, Nat.add_assoc, Nat.add_comm 1] using hlater
      · rw [settled_of_not_kept w _ hkept]
        simp only
        rw [settled_of_not_kept w _ hkept]
        exact .refl

/-- Where the visits of children end: back at the node above them or, if the
pass cannot go on, with the children as they are then. -/
def behindVisits (a : Ancestor) (above : List Ancestor) (r : Visits)
    (journal : List Entry) : Walker :=
  match r.verdict with
  | .kept =>
      goOn { a with before := a.before ++ r.nodes, behind := [] }
        above r.context (journal ++ r.journal)
  | verdict =>
      ⟨above, a.node.withChildren (a.before ++ r.nodes), r.context,
        .ended verdict, journal ++ r.journal⟩

theorem reaches_visitAll
    {visitOne : List Entry → Node → Context → Visit} {above : List Ancestor}
    (hone : ∀ w : Walker, w.stage = .arriving →
      w.above.length = above.length + 1 →
      w.Reaches rules limit
        (w.behindVisit (visitOne w.journal.reverse w.node w.context)))
    (behind : List Node) (a : Ancestor) (ctx : Context) (journal : List Entry) :
    (goOn { a with behind } above ctx journal).Reaches rules limit
      (behindVisits a above (visitAll visitOne a.node.kind a.before.length
        behind journal.reverse ctx) journal) := by
  induction behind generalizing a ctx journal with
  | nil =>
      simp only [visitAll, behindVisits, List.append_nil]
      exact .refl
  | cons child behind ih =>
      refine (hone _ rfl rfl).trans ?_
      simp only [goOn, visitAll]
      generalize visitOne _ child _ = v
      let ctx' : Context := { v.context with depth := v.context.depth - 1 }
      cases hverdict : v.verdict with
      | kept =>
          have hlater :=
            ih { a with before := a.before ++ [v.node] } ctx'
              (journal ++ v.journal)
          refine (Machine.Reaches.of_step
            (t := goOn { a with before := a.before ++ [v.node], behind }
            above ctx' (journal ++ v.journal)) ?_).trans ?_
          · simp [step, behindVisit, hverdict, ctx']
          · simpa [behindVisits] using hlater
      | removed =>
          have hlater := ih a ctx' (journal ++ v.journal)
          refine (Machine.Reaches.of_step
            (t := goOn { a with behind } above ctx'
            (journal ++ v.journal)) ?_).trans ?_
          · simp [step, behindVisit, hverdict, ctx']
          · simpa [behindVisits] using hlater
      | failed cause =>
          apply Machine.Reaches.of_step
          simp [step, behindVisit, hverdict, behindVisits, Ancestor.around]
      | unfinished =>
          apply Machine.Reaches.of_step
          simp [step, behindVisit, hverdict, behindVisits, Ancestor.around]

/-- The machine visits a node as `visit` does. -/
theorem reaches_visit (levels : Nat) (w : Walker) (hstage : w.stage = .arriving)
    (hlevels : w.above.length + levels = limit) :
    w.Reaches rules limit (w.behindVisit
      (visit rules levels w.journal.reverse w.node w.context)) := by
  induction levels generalizing w with
  | zero =>
      apply Machine.Reaches.of_step
      simp [step, hstage, ← hlevels, visit, behindVisit]
  | succ levels ih =>
      let place : Context := { w.context with current := some w.node.kind }
      let arrival :=
        Entry.visited w.node.kind w.context.depth w.context.childIndex
      let arrived : Walker :=
        ⟨w.above, w.node, place, .entering 0 rules [], w.journal ++ [arrival]⟩
      have harrive : w.step rules limit = some arrived := by
        simp [step, hstage, ← hlevels, arrived, place, arrival]
      have hentering : arrived.Reaches rules limit _ :=
        reaches_enterRules rules 0 [] arrived rfl
      refine (Machine.Reaches.of_step harrive).trans (hentering.trans ?_)
      have harrived : arrived.journal.reverse = arrival :: w.journal.reverse :=
        List.reverse_concat
      rw [harrived]
      generalize henter : enterRules 0 rules (arrival :: w.journal.reverse)
        arrived.node arrived.context = result
      obtain ⟨entered, exits⟩ := result
      by_cases hentered : entered.verdict = .kept
      · let a : Ancestor :=
          ⟨entered.node, exits, entered.context.parent,
            entered.context.childIndex, [], []⟩
        let journal := w.journal ++ [arrival] ++ entered.journal
        have hdown : (arrived.settled entered
              (.entering (0 + rules.length) [] ([] ++ exits))).step
              rules limit =
            some (goOn { a with behind := entered.node.children } w.above
              entered.context journal) := by
          simp [step, settled, hentered, a, journal, arrived]
        have hone : ∀ v : Walker, v.stage = .arriving →
            v.above.length = w.above.length + 1 →
            v.Reaches rules limit (v.behindVisit
              (visit rules levels v.journal.reverse v.node v.context)) :=
          fun v hv hlength => ih v hv (by omega)
        have hbelow :=
          reaches_visitAll hone entered.node.children a entered.context journal
        have hpast : journal.reverse =
            entered.journal.reverse ++ arrival :: w.journal.reverse := by
          simp [journal]
        rw [hpast] at hbelow
        refine (Machine.Reaches.of_step hdown).trans (hbelow.trans ?_)
        generalize hvisits : visitAll _ _ _ _ _ _ = below
        by_cases hkept : below.verdict = .kept
        · rw [visit_eq_of_kept henter hentered hvisits hkept]
          have hback :
              (behindVisits a w.above below journal).Reaches rules limit _ :=
            reaches_runExits exits.reverse _
              (by simp only [behindVisits, hkept, goOn, a])
          simpa [behindVisits, hkept, goOn, a, behindVisit, journal,
            Visit.after] using hback
        · rw [visit_eq_of_stopped henter hentered hvisits hkept]
          simp only [behindVisits, a, behindVisit, journal, List.append_assoc,
            List.cons_append, List.nil_append]
          exact .refl
      · rw [settled_of_not_kept _ _ hentered,
          visit_eq_of_not_kept henter hentered]
        simp only [behindVisit, arrived, Visit.after, List.append_assoc]
        exact .refl

/-- The last state holds what the pass leaves. -/
theorem reaches_last (limit : Nat) (o : RenderOptions)
    (rules : List Rule) {root : Node} (hroot : root.kind = .root) :
    let pass := rewrite limit o rules root
    ∃ last, (start rules o root).Reaches rules limit last ∧
      last.step rules limit = none ∧
      last.above = [] ∧ last.node = pass.root ∧
      last.stage = .ended pass.verdict ∧
      pass.journal = last.journal ++
        if pass.verdict = .kept then [.finished rules.length pass.root]
        else [] := by
  have hvisit : (start rules o root).Reaches rules limit _ :=
    reaches_visit limit (start rules o root) rfl (Nat.zero_add limit)
  refine ⟨_, hvisit, rfl, rfl, ?_⟩
  simp only [rewrite, hroot, ne_eq, not_true_eq_false, if_false, start,
    behindVisit, List.reverse_nil]
  generalize visit rules limit [] root _ = v
  cases hverdict : v.verdict <;> simp

inductive Step (rules : List Rule) (limit : Nat) (w : Walker) :
    Walker → Prop where
  | tooDeep (hstage : w.stage = .arriving) :
      Step rules limit w { w with stage := .ended .unfinished }
  | arrive (hstage : w.stage = .arriving) :
      Step rules limit w { w with
        context := { w.context with current := some w.node.kind }
        stage := .entering 0 rules []
        journal := w.journal ++
          [.visited w.node.kind w.context.depth w.context.childIndex] }
  | enter {index : Nat} {rule : Rule} {later : List Rule}
      {exits : List (Nat × ExitAction)}
      (hstage : w.stage = .entering index (rule :: later) exits) :
      Step rules limit w (w.settled
        ((rule.enter w.journal.reverse w.node w.context).settle w.context
          (.invoked .enter index w.node w.context))
        (.entering (index + 1) later (exits ++
          ((rule.enter w.journal.reverse w.node
            w.context).outcome.toOption.bind id).toList.map ((index, ·)))))
  | descend {index : Nat} {exits : List (Nat × ExitAction)}
      (hstage : w.stage = .entering index [] exits) :
      Step rules limit w (goOn
        ⟨w.node, exits, w.context.parent, w.context.childIndex, [],
          w.node.children⟩
        w.above w.context w.journal)
  | exit {index : Nat} {action : ExitAction} {later : List (Nat × ExitAction)}
      (hstage : w.stage = .leaving ((index, action) :: later)) :
      Step rules limit w (w.settled
        ((action w.journal.reverse w.node w.context).settle w.context
          (.invoked .exit index w.node w.context))
        (.leaving later))
  | finish (hstage : w.stage = .leaving []) :
      Step rules limit w { w with stage := .ended .kept }
  | keep {a : Ancestor} {above : List Ancestor}
      (hstage : w.stage = .ended .kept) (habove : w.above = a :: above) :
      Step rules limit w (goOn { a with before := a.before ++ [w.node] } above
        { w.context with depth := w.context.depth - 1 } w.journal)
  | remove {a : Ancestor} {above : List Ancestor}
      (hstage : w.stage = .ended .removed) (habove : w.above = a :: above) :
      Step rules limit w
        (goOn a above { w.context with depth := w.context.depth - 1 } w.journal)
  | stop {a : Ancestor} {above : List Ancestor} {verdict : Verdict}
      (hstage : w.stage = .ended verdict) (hkept : verdict ≠ .kept)
      (hremoved : verdict ≠ .removed) (habove : w.above = a :: above) :
      Step rules limit w ⟨above, a.around w.node,
        { w.context with depth := w.context.depth - 1 },
        .ended verdict, w.journal⟩

theorem step_cases {w : Walker} (h : w.step rules limit = some t) :
    w.Step rules limit t := by
  cases hstage : w.stage with
  | arriving =>
      simp only [step, hstage] at h
      split at h
      · exact Option.some.inj h ▸ .tooDeep hstage
      · exact Option.some.inj h ▸ .arrive hstage
  | entering index later exits =>
      cases later with
      | nil =>
          simp only [step, hstage] at h
          exact Option.some.inj h ▸ .descend hstage
      | cons rule later =>
          simp only [step, hstage] at h
          exact Option.some.inj h ▸ .enter hstage
  | leaving exits =>
      rcases exits with _ | ⟨⟨index, action⟩, later⟩
      · simp only [step, hstage] at h
        exact Option.some.inj h ▸ .finish hstage
      · simp only [step, hstage] at h
        exact Option.some.inj h ▸ .exit hstage
  | ended verdict =>
      cases habove : w.above with
      | nil => simp [step, hstage, habove] at h
      | cons a above =>
          simp only [step, hstage, habove] at h
          cases verdict with
          | kept => exact Option.some.inj h ▸ .keep hstage habove
          | removed => exact Option.some.inj h ▸ .remove hstage habove
          | failed cause =>
              exact Option.some.inj h ▸ .stop hstage (by simp) (by simp) habove
          | unfinished =>
              exact Option.some.inj h ▸ .stop hstage (by simp) (by simp) habove

end Walker

end MarkupTemplate
