/-
The changes that rules ask for.  At the top none is granted, and the context
stays as it is.  Below the top each is granted up to the first removal, and none
behind it.  When the rule has returned, a removal counts before everything else,
and without one the last node counts that was to be put in place.  So no request
changes the top of the tree, whatever the rules are.
-/
import MarkupTemplate.Proofs.Bearings
import MarkupTemplate.Proofs.Bracketing

namespace MarkupTemplate

namespace Context

/-- Ask for a change, and go on as before if it is refused. -/
def tryAsk (ctx : Context) (request : Request) : Context :=
  match ctx.ask request with
  | .ok next => next
  | .error _ => ctx

def tryAll (ctx : Context) (requests : List Request) : Context :=
  requests.foldl tryAsk ctx

/-- Whatever has been asked for before, each change is refused as one of the
top, and nothing changes. -/
def RefusesAll (ctx : Context) : Prop :=
  ∀ earlier : List Request, ctx.tryAll earlier = ctx ∧
    (∀ node, (ctx.tryAll earlier).ask (.replace node) = .error .replaceRoot) ∧
    (ctx.tryAll earlier).ask .remove = .error .removeRoot

/-- A change is granted, whatever has been asked for before, unless that was a
removal.  Behind the first removal all changes are refused, and nothing
changes. -/
def GrantsUntilRemoval (ctx : Context) : Prop :=
  ∀ earlier : List Request,
    (.remove ∉ earlier → ∀ request,
      (ctx.tryAll earlier).ask request = .ok (ctx.grant request)) ∧
    (.remove ∈ earlier → ctx.tryAll earlier = ctx.grant .remove ∧
      ∀ request, (ctx.tryAll earlier).ask request = .error .nodeRemoved)

variable {ctx : Context}

theorem tryAll_append (ctx : Context) (requests : List Request)
    (request : Request) :
    ctx.tryAll (requests ++ [request]) =
      (ctx.tryAll requests).tryAsk request := by
  rw [tryAll, List.foldl_append]
  rfl

theorem refusesAll (hparent : ctx.parent = none) : ctx.RefusesAll := by
  have hask : ∀ request, ctx.tryAsk request = ctx := by
    intro request
    cases request <;> simp [tryAsk, ask, hparent]
  have hall : ∀ earlier, ctx.tryAll earlier = ctx := by
    intro earlier
    induction earlier with
    | nil => rfl
    | cons request earlier ih =>
        rw [tryAll, List.foldl_cons, hask, ← tryAll, ih]
  intro earlier
  rw [hall earlier]
  refine ⟨rfl, fun node => ?_, ?_⟩ <;> simp [ask, hparent]

theorem ask_of_removed (hparent : ctx.parent.isSome = true)
    (request : Request) :
    (ctx.grant .remove).ask request = .error .nodeRemoved := by
  have hparent : ctx.parent ≠ none := Option.isSome_iff_ne_none.mp hparent
  simp [ask, grant, hparent]

theorem tryAll_of_removed (hparent : ctx.parent.isSome = true)
    (requests : List Request) :
    (ctx.grant .remove).tryAll requests = ctx.grant .remove := by
  induction requests with
  | nil => rfl
  | cons request requests ih =>
      rw [tryAll, List.foldl_cons, tryAsk, ask_of_removed hparent]
      exact ih

/-- Without a removal the last change is pending. -/
theorem tryAll_of_not_mem (hparent : ctx.parent.isSome = true)
    (hcurrent : ctx.current.isSome = true) {requests : List Request}
    (h : .remove ∉ requests) :
    ctx.tryAll requests = requests.getLast?.elim ctx ctx.grant ∧
      (ctx.tryAll requests).parent.isSome = true ∧
      (ctx.tryAll requests).current.isSome = true := by
  -- from the end, since the last change overwrites the one that was pending
  induction requests using List.reverseRecOn with
  | nil => exact ⟨rfl, hparent, hcurrent⟩
  | append_singleton requests request ih =>
      rw [List.mem_append, not_or] at h
      obtain ⟨hbefore, hp, hc⟩ := ih h.1
      have hgrant : ctx.tryAll (requests ++ [request]) = ctx.grant request := by
        rw [tryAll_append, tryAsk, ask_of_isSome hp hc, hbefore]
        cases requests.getLast? <;> rfl
      rw [hgrant, List.getLast?_concat]
      refine ⟨rfl, hparent, ?_⟩
      cases request with
      | replace node => rfl
      | remove => exact absurd (List.mem_singleton_self _) h.2

theorem tryAll_of_mem (hparent : ctx.parent.isSome = true)
    (hcurrent : ctx.current.isSome = true) {requests : List Request}
    (h : .remove ∈ requests) : ctx.tryAll requests = ctx.grant .remove := by
  induction requests generalizing ctx with
  | nil => contradiction
  | cons request requests ih =>
      rw [tryAll, List.foldl_cons, tryAsk,
        ask_of_isSome hparent hcurrent, ← tryAll]
      cases request with
      | remove => exact tryAll_of_removed hparent requests
      | replace node =>
          have hlater : Request.remove ∈ requests := by simpa using h
          exact ih hparent rfl hlater

theorem grantsUntilRemoval (hparent : ctx.parent.isSome = true)
    (hcurrent : ctx.current.isSome = true) : ctx.GrantsUntilRemoval := by
  intro earlier
  constructor
  · intro hnot request
    obtain ⟨hearlier, hp, hc⟩ := tryAll_of_not_mem hparent hcurrent hnot
    rw [ask_of_isSome hp hc, hearlier]
    cases earlier.getLast? <;> rfl
  · intro hmem
    rw [tryAll_of_mem hparent hcurrent hmem]
    exact ⟨rfl, ask_of_removed hparent⟩

end Context

/-- Two nodes that differ in their children at most. -/
def Node.SameTop (node other : Node) : Prop :=
  other = node.withChildren other.children

namespace Node

theorem SameTop.refl (node : Node) : node.SameTop node :=
  node.withChildren_children.symm

theorem sameTop_withChildren (node : Node) (nodes others : List Node) :
    (node.withChildren nodes).SameTop (node.withChildren others) := by
  cases node <;> rfl

end Node

def Act.request? : Act → Option Request
  | .ask request => some request
  | .say _ => none

def Reply.requests {α : Type} (reply : Reply α) : List Request :=
  reply.acts.filterMap Act.request?

theorem Context.perform_eq_tryAll (ctx : Context) (acts : List Act) :
    (ctx.perform acts).1 = ctx.tryAll (acts.filterMap Act.request?) := by
  fun_induction Context.perform ctx acts with
  | case1 => rfl
  | case2 ctx request acts next hask last entries hperform ih =>
      rw [hperform] at ih
      simpa [tryAll, tryAsk, hask, Act.request?] using ih
  | case3 ctx request acts cause hask ih =>
      simpa [tryAll, tryAsk, hask, Act.request?] using ih
  | case4 ctx remark acts last entries hperform ih =>
      rw [hperform] at ih
      rw [List.filterMap_cons_none rfl]
      exact ih

/-- What changes make of a node when each is granted up to the first removal: a
removal leaves nothing, and without one the last change counts. -/
inductive Request.Make (requests : List Request) (node : Node) :
    Option Node → Prop where
  | removed (hmem : .remove ∈ requests) : Make requests node none
  | replaced {other : Node} (hnot : .remove ∉ requests)
      (hlast : requests.getLast? = some (.replace other)) :
      Make requests node (some other)
  | kept (hnone : requests = []) : Make requests node (some node)

/-- The context of a node that stands below these when a rule is called. -/
structure Context.Ready (ctx : Context) (above : List Ancestor) : Prop where
  top : ctx.parent = none ↔ above = []
  current : ctx.current.isSome = true
  pending : ctx.pending = none

theorem Context.Ready.isSome_parent {ctx : Context} {above : List Ancestor}
    (hready : ctx.Ready above) (habove : above ≠ []) :
    ctx.parent.isSome = true := by
  rw [Option.isSome_iff_ne_none]
  exact fun h => habove (hready.top.mp h)

namespace Reply

variable {α : Type} (reply : Reply α) {ctx : Context} {above : List Ancestor}

/-- At the top no change is made. -/
theorem settle_of_top (hready : ctx.Ready []) (entry : Entry) :
    (reply.settle ctx entry).node = reply.node ∧
      (reply.settle ctx entry).context = ctx ∧
      ∀ value, reply.outcome = .ok value →
      (reply.settle ctx entry).verdict = .kept := by
  have hperform : (ctx.perform reply.acts).1 = ctx :=
    Context.perform_top (hready.top.mpr rfl) _
  cases houtcome : reply.outcome <;>
    simp [settle, hperform, houtcome, hready.pending]

/-- Below the top the changes are made that the rule asked for. -/
theorem settle_makes (hready : ctx.Ready above)
    (habove : above ≠ []) {value : α} (hok : reply.outcome = .ok value)
    (entry : Entry) :
    (reply.settle ctx entry).Completes ∧
      Request.Make reply.requests reply.node (reply.settle ctx entry).left? ∧
      ((reply.settle ctx entry).verdict = .kept →
        (reply.settle ctx entry).context.current.isSome = true) := by
  have hparent := hready.isSome_parent habove
  have hperform : (ctx.perform reply.acts).1 = ctx.tryAll reply.requests :=
    ctx.perform_eq_tryAll reply.acts
  by_cases hmem : .remove ∈ reply.requests
  · rw [Context.tryAll_of_mem hparent hready.current hmem] at hperform
    have hsettle : reply.settle ctx entry = ⟨reply.node,
        { ctx.grant .remove with pending := none },
        entry :: (ctx.perform reply.acts).2, .removed⟩ := by
      simp [settle, hperform, hok, Context.grant]
    rw [hsettle]
    exact ⟨.inr rfl, .removed hmem, by simp⟩
  · rw [(Context.tryAll_of_not_mem hparent hready.current hmem).1] at hperform
    cases hlast : reply.requests.getLast? with
    | none =>
        rw [hlast, Option.elim_none] at hperform
        have hsettle : reply.settle ctx entry =
            ⟨reply.node, ctx, entry :: (ctx.perform reply.acts).2, .kept⟩ := by
          simp [settle, hperform, hok, hready.pending]
        rw [hsettle]
        exact ⟨.inl rfl,
          .kept (List.getLast?_eq_none_iff.mp hlast), fun _ => hready.current⟩
    | some request =>
        cases request with
        | remove => exact absurd (List.mem_of_getLast? hlast) hmem
        | replace other =>
            rw [hlast, Option.elim_some] at hperform
            have hsettle : reply.settle ctx entry = ⟨other,
                { ctx.grant (.replace other) with pending := none },
                entry :: (ctx.perform reply.acts).2, .kept⟩ := by
              simp [settle, hperform, hok, Context.grant]
            rw [hsettle]
            exact ⟨.inl rfl, .replaced hmem hlast, fun _ => rfl⟩

/-- The answer without the exit action that it may hold. -/
def withoutExit : Reply Unit :=
  ⟨reply.node, reply.acts, reply.outcome.map fun _ => ()⟩

theorem settle_withoutExit (ctx : Context) (entry : Entry) :
    reply.withoutExit.settle ctx entry = reply.settle ctx entry := by
  cases houtcome : reply.outcome with
  | error cause => simp [settle, withoutExit, houtcome, Except.map]
  | ok value =>
      rcases hpending : (ctx.perform reply.acts).1.pending with _ | _ | _ <;>
        simp [settle, withoutExit, houtcome, Except.map, hpending]

/-- A rule that keeps the node leaves the context ready for the next one. -/
theorem settle_ready (hready : ctx.Ready above) {entry : Entry}
    (hkept : (reply.settle ctx entry).verdict = .kept) :
    (reply.settle ctx entry).context.Ready above := by
  have hpending : (reply.settle ctx entry).context.pending = none :=
    reply.settle_pending (by simp [hkept])
  have hplace := reply.settle_samePlace ctx entry
  refine ⟨by rw [hplace.parent, hready.top], ?_, hpending⟩
  by_cases habove : above = []
  · subst habove
    rw [(reply.settle_of_top hready entry).2.1]
    exact hready.current
  · cases houtcome : reply.outcome with
    | error cause => simp [settle, houtcome] at hkept
    | ok value =>
        exact (reply.settle_makes hready habove houtcome entry).2.2 hkept

end Reply

/-- Each of these nodes above each other has kept whether it stands at the
top. -/
def Ancestor.Placed : List Ancestor → Prop
  | [] => True
  | a :: above => (a.parent = none ↔ above = []) ∧ Placed above

namespace Walker

/-- What the context shows at each stage of a visit, whatever the rules edit. -/
def Shown (w : Walker) : Prop :=
  match w.stage with
  | .arriving =>
      (w.context.parent = none ↔ w.above = []) ∧ w.context.pending = none
  | .entering .. => w.context.Ready w.above
  | .leaving _ => w.context.Ready w.above
  | .ended verdict =>
      (∀ cause, verdict ≠ .failed cause) → w.context.pending = none

structure Poised (w : Walker) : Prop where
  placed : Ancestor.Placed w.above
  shown : w.Shown

theorem poised_goOn {a : Ancestor} {above : List Ancestor} {ctx : Context}
    {journal : List Entry} (hplaced : Ancestor.Placed (a :: above))
    (hpending : ctx.pending = none) : (goOn a above ctx journal).Poised := by
  unfold goOn
  split
  · exact ⟨hplaced.2, hplaced.1, rfl, hpending⟩
  · exact ⟨hplaced, by simp, hpending⟩

theorem poised_settled {α : Type} {w : Walker} (reply : Reply α) {entry : Entry}
    {next : Stage} (hw : w.Poised) (hready : w.context.Ready w.above)
    (hnext : ∀ node ctx journal, ctx.Ready w.above →
      Shown ⟨w.above, node, ctx, next, journal⟩) :
    (w.settled (reply.settle w.context entry) next).Poised := by
  have hlater : (reply.settle w.context entry).verdict = .kept → _ :=
    reply.settle_ready hready
  have hpending :
      (∀ cause, (reply.settle w.context entry).verdict ≠ .failed cause) → _ :=
    reply.settle_pending
  generalize reply.settle w.context entry = v at *
  refine ⟨hw.placed, ?_⟩
  by_cases hkept : v.verdict = .kept
  · simp only [settled, hkept]
    exact hnext _ _ _ (hlater hkept)
  · rw [settled_of_not_kept w next hkept]
    exact hpending

variable {rules : List Rule} {limit : Nat} {w t : Walker}

theorem Step.poised (hstep : w.Step rules limit t) (hw : w.Poised) :
    t.Poised := by
  have hplaced := hw.placed
  have hshown := hw.shown
  cases hstep with
  | tooDeep hstage =>
      simp only [Shown, hstage] at hshown
      exact ⟨hplaced, fun _ => hshown.2⟩
  | arrive hstage =>
      simp only [Shown, hstage] at hshown
      exact ⟨hplaced, hshown.1, rfl, hshown.2⟩
  | enter hstage =>
      simp only [Shown, hstage] at hshown
      exact poised_settled _ hw hshown fun _ _ _ hready => hready
  | descend hstage =>
      simp only [Shown, hstage] at hshown
      exact poised_goOn ⟨hshown.top, hplaced⟩ hshown.pending
  | exit hstage =>
      simp only [Shown, hstage] at hshown
      exact poised_settled _ hw hshown fun _ _ _ hready => hready
  | finish hstage =>
      simp only [Shown, hstage] at hshown
      exact ⟨hplaced, fun _ => hshown.pending⟩
  | keep hstage habove =>
      simp only [Shown, hstage] at hshown
      rw [habove] at hplaced
      exact poised_goOn hplaced (hshown (by simp))
  | remove hstage habove =>
      simp only [Shown, hstage] at hshown
      rw [habove] at hplaced
      exact poised_goOn hplaced (hshown (by simp))
  | stop hstage _ _ habove =>
      simp only [Shown, hstage] at hshown
      rw [habove] at hplaced
      exact ⟨hplaced.2, hshown⟩

theorem Reaches.poised {o : RenderOptions} {root : Node}
    (h : (start rules o root).Reaches rules limit w) : w.Poised :=
  h.invariant (fun _ _ hs hstep => (step_cases hstep).poised hs)
    ⟨trivial, by simp [start], rfl⟩

/-- The answer of the rule or exit action that the next step calls. -/
def answer? (w : Walker) : Option (Reply Unit) :=
  match w.stage with
  | .entering _ (rule :: _) _ =>
      some (rule.enter w.journal.reverse w.node w.context).withoutExit
  | .leaving ((_, action) :: _) =>
      some (action w.journal.reverse w.node w.context)
  | _ => none

theorem isSome_answer? (w : Walker) : w.answer?.isSome = w.call?.isSome := by
  unfold answer? call?
  cases w.stage with
  | entering index later exits => cases later <;> rfl
  | leaving exits => rcases exits with _ | ⟨⟨index, action⟩, later⟩ <;> rfl
  | _ => rfl

theorem Poised.ready (hw : w.Poised) {reply : Reply Unit}
    (hanswer : w.answer? = some reply) : w.context.Ready w.above := by
  have hshown := hw.shown
  unfold answer? at hanswer
  unfold Shown at hshown
  cases hstage : w.stage with
  | entering =>
      simp only [hstage] at hshown
      exact hshown
  | leaving =>
      simp only [hstage] at hshown
      exact hshown
  | _ => simp [hstage] at hanswer

/-- A step that calls a rule settles its answer. -/
theorem step_of_answer (rules : List Rule) (limit : Nat) {reply : Reply Unit}
    (hanswer : w.answer? = some reply) :
    ∃ entry next, (∀ verdict, next ≠ .ended verdict) ∧
      w.step rules limit = some
        (w.settled (reply.settle w.context entry) next) := by
  unfold answer? at hanswer
  split at hanswer
  · next index rule later exits hstage =>
      obtain rfl := Option.some.inj hanswer
      let reply := rule.enter w.journal.reverse w.node w.context
      let exit := (reply.outcome.toOption.bind id).toList.map ((index, ·))
      refine ⟨.invoked .enter index w.node w.context,
        .entering (index + 1) later (exits ++ exit), by simp, ?_⟩
      rw [Reply.settle_withoutExit, step, hstage]
  · next index action later hstage =>
      obtain rfl := Option.some.inj hanswer
      refine ⟨.invoked .exit index w.node w.context,
        .leaving later, by simp, ?_⟩
      rw [step, hstage]
  · contradiction

theorem tree_goOn (a : Ancestor) (above : List Ancestor) (ctx : Context)
    (journal : List Entry) :
    (goOn a above ctx journal).tree =
      above.foldl (fun node a => a.around node)
        (a.node.withChildren (a.before ++ a.behind)) := by
  unfold goOn
  split
  · next hbehind => rw [tree, hbehind, List.append_nil]
  · next hbehind =>
      rw [hbehind]
      rfl

/-- Below the top the top stays, whatever comes in the place of the node. -/
theorem sameTop_foldl {node other : Node} (above : List Ancestor)
    (h : above = [] → node.SameTop other) :
    (above.foldl (fun node a => a.around node) node).SameTop
      (above.foldl (fun node a => a.around node) other) := by
  induction above generalizing node other with
  | nil => exact h rfl
  | cons a above ih => exact ih fun _ => a.node.sameTop_withChildren _ _

theorem tree_settled_top {w : Walker} {reply : Reply Unit}
    (hready : w.context.Ready w.above) (habove : w.above = []) (entry : Entry)
    (next : Stage) :
    (w.settled (reply.settle w.context entry) next).tree = reply.node := by
  rw [habove] at hready
  rw [tree, settled, habove]
  exact (reply.settle_of_top hready entry).1

/-- A step changes the top of the tree only if it calls a rule at the top, and
then only by what the rule edits. -/
theorem Poised.step_top (hw : w.Poised) (hstep : w.step rules limit = some t) :
    (w.above = [] ∧ ∃ reply, w.answer? = some reply ∧ t.tree = reply.node) ∨
      w.tree.SameTop t.tree := by
  cases hanswer : w.answer? with
  | some reply =>
      obtain ⟨entry, next, _, hcall⟩ := step_of_answer rules limit hanswer
      obtain rfl := Option.some.inj (hcall.symm.trans hstep)
      -- what comes in the place of a node below the top is put into its parent
      by_cases habove : w.above = []
      · exact .inl ⟨habove, reply, rfl,
          tree_settled_top (hw.ready hanswer) habove entry next⟩
      · exact .inr (sameTop_foldl w.above fun h => absurd h habove)
  | none =>
      refine .inr ?_
      cases step_cases hstep with
      | enter hstage => simp [answer?, hstage] at hanswer
      | exit hstage => simp [answer?, hstage] at hanswer
      | tooDeep => exact .refl _
      | arrive => exact .refl _
      | finish => exact .refl _
      | descend =>
          rw [tree_goOn, List.nil_append, Node.withChildren_children]
          exact .refl _
      | @keep a above _ habove =>
          rw [tree_goOn, List.append_assoc, tree, habove]
          exact .refl _
      | @remove a above _ habove =>
          rw [tree_goOn, tree, habove]
          exact sameTop_foldl above fun _ => a.node.sameTop_withChildren _ _
      | stop _ _ _ habove =>
          rw [tree, habove]
          exact .refl _

/-- The walker goes on with what is left in the place of a node: at the node
that stands there, or behind it when it has been taken out of the tree. -/
def GoesOnWith (rules : List Rule) (limit : Nat) (w t : Walker) :
    Option Node → Prop
  | some node =>
      t.above = w.above ∧ t.node = node ∧ ∀ verdict, t.stage ≠ .ended verdict
  | none => t.stage = .ended .removed ∧ ∃ a above u, w.above = a :: above ∧
      t.step rules limit = some u ∧ u.tree =
        above.foldl (fun node a => a.around node)
          (a.node.withChildren (a.before ++ a.behind))

theorem goesOnWith_settled (rules : List Rule) (limit : Nat)
    (w : Walker) {v : Visit} {next : Stage} (hv : v.Completes)
    (habove : w.above ≠ [] ∨ v.verdict = .kept)
    (hnext : ∀ verdict, next ≠ .ended verdict) :
    GoesOnWith rules limit w (w.settled v next) v.left? := by
  by_cases hkept : v.verdict = .kept
  · rw [Visit.left?_of_kept hkept]
    refine ⟨rfl, rfl, ?_⟩
    simpa only [settled, hkept] using hnext
  · have hremoved := hv.resolve_left hkept
    rw [Visit.left?_of_not_kept hkept, settled_of_not_kept w next hkept,
      behindVisit, hremoved]
    refine ⟨rfl, ?_⟩
    cases hstack : w.above with
    | nil => exact absurd hstack (habove.resolve_right hkept)
    | cons a above => exact ⟨a, above, _, rfl, rfl, tree_goOn a above _ _⟩

/-- A call at the top. -/
theorem Poised.call_top (hw : w.Poised) (habove : w.above = [])
    {reply : Reply Unit} (hanswer : w.answer? = some reply)
    (hstep : w.step rules limit = some t) :
    w.context.RefusesAll ∧ t.node = reply.node ∧ t.context = w.context ∧
      (reply.outcome = .ok () →
        GoesOnWith rules limit w t (some reply.node)) := by
  have hready := hw.ready hanswer
  obtain ⟨entry, next, hnext, hcall⟩ := step_of_answer rules limit hanswer
  obtain rfl := Option.some.inj (hcall.symm.trans hstep)
  have hparent := hready.top.mpr habove
  rw [habove] at hready
  obtain ⟨hnode, hcontext, hverdict⟩ := reply.settle_of_top hready entry
  refine ⟨Context.refusesAll hparent, hnode, hcontext, fun hok => ?_⟩
  have hkept := hverdict () hok
  have hgoes := goesOnWith_settled rules limit w (.inl hkept) (.inr hkept) hnext
  rwa [Visit.left?_of_kept hkept, hnode] at hgoes

/-- A call below the top. -/
theorem Poised.call_below (hw : w.Poised) (habove : w.above ≠ [])
    {reply : Reply Unit} (hanswer : w.answer? = some reply)
    (hstep : w.step rules limit = some t) :
    w.context.GrantsUntilRemoval ∧ (reply.outcome = .ok () →
      ∃ left, Request.Make reply.requests reply.node left ∧
      GoesOnWith rules limit w t left) := by
  have hready := hw.ready hanswer
  obtain ⟨entry, next, hnext, hcall⟩ := step_of_answer rules limit hanswer
  obtain rfl := Option.some.inj (hcall.symm.trans hstep)
  refine ⟨Context.grantsUntilRemoval
    (hready.isSome_parent habove) hready.current, fun hok => ?_⟩
  obtain ⟨hcompletes, hmakes, _⟩ := reply.settle_makes hready habove hok entry
  exact ⟨_, hmakes,
    goesOnWith_settled rules limit w hcompletes (.inl habove) hnext⟩

/-- The changes that rules ask for, in the pass of any rules over a root.  The
walker makes the pass.  Where it calls a rule or an exit action at the top, all
changes are refused, and it goes on with the node as the rule has edited it.
Where it calls one below the top, changes are granted up to the first removal,
and it goes on with what they make of the node.  So the top is never removed,
and each step leaves it as it is but for its children, unless a rule is called
on it and edits it. -/
theorem requests_settled (limit : Nat) (o : RenderOptions)
    (rules : List Rule) {root : Node} (hroot : root.kind = .root) :
    let begins := start rules o root
    let pass := rewrite limit o rules root
    (∃ last, begins.Reaches rules limit last ∧ last.step rules limit = none ∧
      last.tree = pass.root ∧ last.stage = .ended pass.verdict) ∧
    (∀ phase rule node ctx, .invoked phase rule node ctx ∈ pass.journal ↔
      ∃ w, begins.Reaches rules limit w ∧ w.call? = some (phase, rule) ∧
        w.node = node ∧
        w.context = ctx) ∧
    (∀ w, begins.Reaches rules limit w → w.call? ≠ none →
      ∃ reply t, w.answer? = some reply ∧ w.step rules limit = some t ∧
        (w.above = [] → w.context.RefusesAll ∧ t.node = reply.node ∧
          t.context = w.context ∧
          (reply.outcome = .ok () →
            GoesOnWith rules limit w t (some reply.node))) ∧
        (w.above ≠ [] → w.context.GrantsUntilRemoval ∧ (reply.outcome = .ok () →
          ∃ left, Request.Make reply.requests reply.node left ∧
            GoesOnWith rules limit w t left))) ∧
    pass.verdict ≠ .removed ∧
    ∀ w t, begins.Reaches rules limit w → w.step rules limit = some t →
      (w.above = [] ∧ ∃ reply, w.answer? = some reply ∧ t.tree = reply.node) ∨
        w.tree.SameTop t.tree := by
  intro begins pass
  refine ⟨exists_last limit o rules hroot, invoked_mem_iff limit o rules hroot,
    ?_, ?_, ?_⟩
  · intro w hw hcall
    have hanswer : w.answer?.isSome = true := by
      rw [isSome_answer?, Option.isSome_iff_ne_none]
      exact hcall
    obtain ⟨reply, hreply⟩ := Option.isSome_iff_exists.mp hanswer
    obtain ⟨_, _, _, hstep⟩ := step_of_answer rules limit hreply
    exact ⟨reply, _, hreply, hstep,
      fun habove => hw.poised.call_top habove hreply hstep,
      fun habove => hw.poised.call_below habove hreply hstep⟩
  · rw [show pass.verdict = _ from verdict_rewrite limit o rules hroot]
    exact visit_top rfl rfl rules limit [] root
  · intro w t hw hstep
    exact hw.poised.step_top hstep

/-- A rule asks for a comment in the place of each node, for its removal and for
the comment again, and passes over refusals.  The text is taken out of the tree,
and the root stays on arrival and when it is left. -/
theorem requests_settled_ignoring :
    let zero : Span := ⟨0, 0⟩
    let comment := Node.comment "c" zero none
    let rule := Recipe.toRule ⟨"r", {},
      [⟨.replace comment, true⟩, ⟨.remove, true⟩, ⟨.replace comment, true⟩],
      some [⟨.remove, true⟩]⟩
    let text := Node.text "t" zero none
    let root := Node.root [text] zero none
    let begins := start [rule] {} root
    (∃ w t, begins.Reaches [rule] 2 w ∧ w.call? = some (.enter, 0) ∧
      w.node = text ∧
      w.context.GrantsUntilRemoval ∧ w.step [rule] 2 = some t ∧
      GoesOnWith [rule] 2 w t none) ∧
    (∃ w t, begins.Reaches [rule] 2 w ∧ w.call? = some (.exit, 0) ∧
      w.node = root.withChildren [] ∧ w.context.RefusesAll ∧
      w.step [rule] 2 = some t ∧
      t.node = w.node) ∧
    (rewrite 2 {} [rule] root).verdict ≠ .removed := by
  intro zero comment rule text root begins
  obtain ⟨_, _, hcalls, hverdict, _⟩ :=
    requests_settled 2 {} [rule] (show root.kind = .root from rfl)
  refine ⟨?_, ?_, hverdict⟩
  · obtain ⟨w, hw, hcall, hnode, habove, reply, hanswer, hok, hrequests⟩ :
        ∃ w, begins.Reaches [rule] 2 w ∧ w.call? = some (.enter, 0) ∧
          w.node = text ∧
          w.above.length = 1 ∧ ∃ reply, w.answer? = some reply ∧
          reply.outcome = .ok () ∧
          reply.requests = [.replace comment, .remove, .replace comment] :=
      ⟨_, .tail (.tail (.tail (.tail .refl rfl) rfl) rfl) rfl, rfl, rfl, rfl, _,
        rfl, rfl, rfl⟩
    obtain ⟨other, t, hother, hstep, _, hbelow⟩ := hcalls w hw (by simp [hcall])
    obtain rfl := Option.some.inj (hanswer.symm.trans hother)
    obtain ⟨hgrants, hmakes⟩ := hbelow (List.ne_nil_of_length_eq_add_one habove)
    obtain ⟨left, hmake, hgoes⟩ := hmakes hok
    rw [hrequests] at hmake
    cases hmake with
    | removed => exact ⟨w, t, hw, hcall, hnode, hgrants, hstep, hgoes⟩
    | replaced hnot => simp at hnot
    | kept hnone => simp at hnone
  · obtain ⟨w, hw, hcall, hnode, habove, reply, hanswer, hsame⟩ :
        ∃ w, begins.Reaches [rule] 2 w ∧ w.call? = some (.exit, 0) ∧
          w.node = root.withChildren [] ∧ w.above = [] ∧
          ∃ reply, w.answer? = some reply ∧ reply.node = w.node :=
      ⟨_, .tail (.tail (.tail (.tail (.tail (.tail .refl rfl) rfl) rfl) rfl)
        rfl) rfl, rfl, rfl, rfl, _, rfl, rfl⟩
    obtain ⟨other, t, hother, hstep, htop, _⟩ := hcalls w hw (by simp [hcall])
    obtain rfl := Option.some.inj (hanswer.symm.trans hother)
    obtain ⟨hrefuses, hstays, _⟩ := htop habove
    exact ⟨w, t, hw, hcall, hnode, hrefuses, hstep, hstays.trans hsame⟩

end Walker

end MarkupTemplate
