/-
What happens in a visit.  When a rule has answered, the place that the context
shows is the same, and the kind that it shows is that of the node which stands
there once the pending change has been made.  A visit ends on arrival, below the
node, or with its exit actions.
-/
import Mathlib
import MarkupTemplate.Rewrite.Pass

namespace MarkupTemplate

namespace Context

/-- The kind that is shown is `kind`, or that of the node which is to be put in
its place; none is shown if the node is to be removed. -/
def Shows (ctx : Context) (kind : Kind) : Prop :=
  ctx.current = match ctx.pending with
    | none => some kind
    | some (.replace node) => some node.kind
    | some .remove => none

/-- Nothing but the kind that is shown and the pending change differs. -/
structure SamePlace (ctx later : Context) : Prop where
  parent : later.parent = ctx.parent
  childIndex : later.childIndex = ctx.childIndex
  depth : later.depth = ctx.depth

theorem SamePlace.refl (ctx : Context) : ctx.SamePlace ctx := ⟨rfl, rfl, rfl⟩

theorem SamePlace.trans {a b c : Context} (hab : a.SamePlace b)
    (hbc : b.SamePlace c) : a.SamePlace c :=
  ⟨hbc.parent.trans hab.parent, hbc.childIndex.trans hab.childIndex,
    hbc.depth.trans hab.depth⟩

variable {ctx later : Context}

/-- A change that is granted is pending, and shown. -/
theorem ask_eq_ok {request : Request} (h : ctx.ask request = .ok later)
    (kind : Kind) :
    ctx.SamePlace later ∧ later.pending = some request ∧ later.Shows kind := by
  unfold ask at h
  split at h
  · cases request <;> contradiction
  · split at h
    · contradiction
    · cases h
      exact ⟨⟨rfl, rfl, rfl⟩, rfl, by cases request <;> rfl⟩

def grant (ctx : Context) (request : Request) : Context :=
  { ctx with
    current := match request with
      | .replace node => some node.kind
      | .remove => none
    pending := some request }

theorem ask_of_isSome (hparent : ctx.parent.isSome = true)
    (hcurrent : ctx.current.isSome = true) (request : Request) :
    ctx.ask request = .ok (ctx.grant request) := by
  rw [Option.isSome_iff_ne_none] at hparent hcurrent
  cases request <;>
    simp only [ask, Option.isNone_iff_eq_none, hparent, hcurrent, if_false,
      grant]

theorem perform_samePlace (ctx : Context) (acts : List Act) :
    ctx.SamePlace (ctx.perform acts).1 := by
  fun_induction perform ctx acts with
  | case1 ctx => exact .refl ctx
  | case2 ctx _ _ _ hask _ _ hperform ih =>
      rw [hperform] at ih
      exact (ask_eq_ok hask .root).1.trans ih
  | case3 _ _ _ _ _ ih => exact ih
  | case4 _ _ _ _ _ hperform ih => rwa [hperform] at ih

theorem perform_shows {kind : Kind} (acts : List Act) (h : ctx.Shows kind) :
    (ctx.perform acts).1.Shows kind := by
  fun_induction perform ctx acts with
  | case1 => exact h
  | case2 _ _ _ _ hask _ _ hperform ih =>
      have hlater := ih (ask_eq_ok hask kind).2.2
      rwa [hperform] at hlater
  | case3 _ _ _ _ _ ih => exact ih h
  | case4 _ _ _ _ _ hperform ih =>
      have hlater := ih h
      rwa [hperform] at hlater

/-- What a rule does is no call of a rule. -/
theorem perform_not_invoked (ctx : Context) (acts : List Act)
    (phase : Phase) (rule : Nat) (node : Node) (inner : Context) :
    .invoked phase rule node inner ∉ (ctx.perform acts).2 := by
  fun_induction perform ctx acts with
  | case1 => simp
  | case2 _ _ _ _ _ _ _ hperform ih => simpa [hperform] using ih
  | case3 _ _ _ _ _ ih => exact ih
  | case4 _ _ _ _ _ hperform ih => simpa [hperform] using ih

end Context

namespace Reply

variable {α : Type} (reply : Reply α) (ctx : Context) (entry : Entry)

theorem journal_settle :
    (reply.settle ctx entry).journal = entry :: (ctx.perform reply.acts).2 := by
  unfold settle
  simp only
  split <;> rfl

theorem settle_samePlace : ctx.SamePlace (reply.settle ctx entry).context := by
  have hplace := ctx.perform_samePlace reply.acts
  unfold settle
  simp only
  split <;> exact ⟨hplace.parent, hplace.childIndex, hplace.depth⟩

/-- When the pass goes on, no change is pending. -/
theorem settle_pending {ctx : Context} {entry : Entry}
    (h : ∀ cause, (reply.settle ctx entry).verdict ≠ .failed cause) :
    (reply.settle ctx entry).context.pending = none := by
  unfold settle at h ⊢
  simp only at h ⊢
  split at h
  · exact absurd rfl (h _)
  · assumption
  · rfl
  · rfl

/-- When the node is kept, its kind is shown. -/
theorem settle_current {ctx : Context} {entry : Entry}
    (hshows : ctx.Shows reply.node.kind)
    (h : (reply.settle ctx entry).verdict = .kept) :
    (reply.settle ctx entry).context.current =
      some (reply.settle ctx entry).node.kind := by
  have hlater := Context.perform_shows reply.acts hshows
  unfold settle at h ⊢
  simp only [Context.Shows] at h hlater ⊢
  split at h
  · contradiction
  · next hpending => simpa [hpending] using hlater
  · next hpending => simpa [hpending] using hlater
  · contradiction

section

variable {ctx : Context} (hparent : ctx.parent.isSome = true)
  (hcurrent : ctx.current.isSome = true) (node : Node) (value : α)
  (entry : Entry)

include hparent hcurrent

/-- Below the top a rule that asks for another node gets it. -/
theorem settle_replace (edited : Node) :
    (Reply.mk node [.ask (.replace edited)] (.ok value)).settle ctx entry =
      ⟨edited, { ctx with current := some edited.kind, pending := none },
        [entry, .requested (.replace edited) ctx.childIndex], .kept⟩ := by
  simp [settle, Context.perform, Context.ask_of_isSome hparent hcurrent,
    Context.grant]

theorem settle_remove :
    (Reply.mk node [.ask .remove] (.ok value)).settle ctx entry =
      ⟨node, { ctx with current := none, pending := none },
        [entry, .requested .remove ctx.childIndex], .removed⟩ := by
  simp [settle, Context.perform, Context.ask_of_isSome hparent hcurrent,
    Context.grant]

end

end Reply

section

variable {rules : List Rule} {limit : Nat} {past : List Entry} {node : Node}
  {ctx : Context} {entered : Visit} {exits : List (Nat × ExitAction)}
  {below : Visits}
  (henter : enterRules 0 rules
      (.visited node.kind ctx.depth ctx.childIndex :: past) node
    { ctx with current := some node.kind } = (entered, exits))

include henter

/-- A visit whose node is not kept on arrival ends there. -/
theorem visit_eq_of_not_kept (hentered : entered.verdict ≠ .kept) :
    visit rules (limit + 1) past node ctx =
      entered.after [.visited node.kind ctx.depth ctx.childIndex] := by
  rw [visit]
  simp only [henter]

variable (hentered : entered.verdict = .kept)
  (hvisits : visitAll (visit rules limit) entered.node.kind 0
    entered.node.children
    (entered.journal.reverse ++
      .visited node.kind ctx.depth ctx.childIndex :: past)
    entered.context = below)

include hentered hvisits

/-- A visit that cannot go on below its node ends there. -/
theorem visit_eq_of_stopped (hbelow : below.verdict ≠ .kept) :
    visit rules (limit + 1) past node ctx =
      ⟨entered.node.withChildren below.nodes, below.context,
        .visited node.kind ctx.depth ctx.childIndex ::
          (entered.journal ++ below.journal),
        below.verdict⟩ := by
  rw [visit]
  simp only [henter, hentered, hvisits]

/-- A visit whose node is kept on arrival and by the visits below it ends with
the exit actions, back at the place of the node. -/
theorem visit_eq_of_kept (hbelow : below.verdict = .kept) :
    let journal := .visited node.kind ctx.depth ctx.childIndex ::
      (entered.journal ++ below.journal)
    visit rules (limit + 1) past node ctx =
      (runExits exits.reverse (journal.reverse ++ past)
        (entered.node.withChildren below.nodes)
        { below.context with
          parent := entered.context.parent
          childIndex := entered.context.childIndex
          current := some entered.node.kind }).after journal := by
  intro journal
  rw [visit]
  simp only [henter, hentered, hvisits, hbelow, journal]

end

/-- A visit that neither fails nor goes too deep. -/
def Visit.Completes (v : Visit) : Prop :=
  v.verdict = .kept ∨ v.verdict = .removed

def Visit.left? (v : Visit) : Option Node :=
  match v.verdict with
  | .kept => some v.node
  | _ => none

namespace Visit

theorem left?_of_kept {v : Visit} (h : v.verdict = .kept) :
    v.left? = some v.node := by
  simp only [left?, h]

theorem left?_of_not_kept {v : Visit} (h : v.verdict ≠ .kept) :
    v.left? = none := by
  simp only [left?]

end Visit

section

variable {visitOne : List Entry → Node → Context → Visit} {parent : Kind}
  {index : Nat} {node : Node} {nodes : List Node} {past : List Entry}
  {ctx : Context} {v : Visit}
  (hv : visitOne past node { ctx with
    parent := some parent, childIndex := index, depth := ctx.depth + 1 } = v)

include hv

/-- When the visit of the first of some children comes to its end, the others
are visited. -/
theorem visitAll_cons_of_completes (hcompletes : v.Completes) :
    ∃ next,
      let later :=
        visitAll visitOne parent next nodes (v.journal.reverse ++ past)
        { v.context with depth := v.context.depth - 1 }
      visitAll visitOne parent index (node :: nodes) past ctx =
        ⟨v.left?.toList ++ later.nodes, later.context,
          v.journal ++ later.journal, later.verdict⟩ := by
  rw [visitAll]
  simp only [hv]
  rcases hcompletes with hverdict | hverdict
  · rw [Visit.left?_of_kept hverdict]
    simp only [hverdict]
    exact ⟨index + 1, rfl⟩
  · rw [Visit.left?_of_not_kept (by simp [hverdict])]
    simp only [hverdict]
    exact ⟨index, rfl⟩

/-- When it does not, they stay as they are. -/
theorem visitAll_cons_of_stopped (hstopped : ¬ v.Completes) :
    visitAll visitOne parent index (node :: nodes) past ctx =
      ⟨v.node :: nodes, { v.context with depth := v.context.depth - 1 },
        v.journal, v.verdict⟩ := by
  rw [visitAll]
  simp only [hv]
  cases hverdict : v.verdict with
  | kept => exact absurd (.inl hverdict) hstopped
  | removed => exact absurd (.inr hverdict) hstopped
  | failed => rfl
  | unfinished => rfl

end

/-- When visits one after another come to their end, the first of them does, and
so do the others. -/
theorem visitAll_cons_of_kept {visitOne : List Entry → Node → Context → Visit}
    {parent : Kind} {index : Nat} {node : Node} {nodes : List Node}
    {past : List Entry} {ctx : Context}
    (h : (visitAll visitOne parent index (node :: nodes) past ctx).verdict =
      .kept) :
    let v := visitOne past node { ctx with
      parent := some parent, childIndex := index, depth := ctx.depth + 1 }
    v.Completes ∧ ∃ next,
      let later :=
        visitAll visitOne parent next nodes (v.journal.reverse ++ past)
        { v.context with depth := v.context.depth - 1 }
      later.verdict = .kept ∧
        visitAll visitOne parent index (node :: nodes) past ctx =
          ⟨v.left?.toList ++ later.nodes, later.context,
            v.journal ++ later.journal, later.verdict⟩ := by
  intro v
  by_cases hcompletes : v.Completes
  · obtain ⟨next, hall⟩ := visitAll_cons_of_completes rfl hcompletes
    refine ⟨hcompletes, next, ?_, hall⟩
    rwa [hall] at h
  · rw [visitAll_cons_of_stopped rfl hcompletes] at h
    exact absurd (.inl h) hcompletes

theorem visitAll_not_removed (visitOne : List Entry → Node → Context → Visit)
    (parent : Kind) (index : Nat) (nodes : List Node) (past : List Entry)
    (ctx : Context) :
    (visitAll visitOne parent index nodes past ctx).verdict ≠ .removed := by
  induction nodes generalizing index past ctx with
  | nil => simp [visitAll]
  | cons node nodes ih =>
      rw [visitAll]
      generalize visitOne past node _ = v
      cases hverdict : v.verdict with
      | kept => exact ih _ _ _
      | removed => exact ih _ _ _
      | failed => simp
      | unfinished => simp

/-- How a visit goes that neither fails nor goes too deep: a rule removes the
node on arrival, or the exit actions run when the nodes below have been
visited. -/
inductive Visit.Course (rules : List Rule) (limit : Nat) (past : List Entry)
    (node : Node) (ctx : Context) : Visit → Prop where
  | removed {entered : Visit} {exits : List (Nat × ExitAction)}
      (henter : enterRules 0 rules
        (.visited node.kind ctx.depth ctx.childIndex :: past) node
        { ctx with current := some node.kind } = (entered, exits))
      (hentered : entered.verdict = .removed) :
      Course rules limit past node ctx
        (entered.after [.visited node.kind ctx.depth ctx.childIndex])
  | left {entered last : Visit} {exits : List (Nat × ExitAction)}
      {below : Visits} {journal : List Entry}
      (henter : enterRules 0 rules
        (.visited node.kind ctx.depth ctx.childIndex :: past) node
        { ctx with current := some node.kind } = (entered, exits))
      (hentered : entered.verdict = .kept)
      (hvisits : visitAll (visit rules limit) entered.node.kind 0
        entered.node.children
        (entered.journal.reverse ++
          .visited node.kind ctx.depth ctx.childIndex :: past)
        entered.context = below)
      (hbelow : below.verdict = .kept)
      (hjournal : journal = .visited node.kind ctx.depth ctx.childIndex ::
        (entered.journal ++ below.journal))
      (hexits : runExits exits.reverse (journal.reverse ++ past)
        (entered.node.withChildren below.nodes)
        { below.context with
          parent := entered.context.parent
          childIndex := entered.context.childIndex
          current := some entered.node.kind } = last)
      (hlast : last.Completes) :
      Course rules limit past node ctx (last.after journal)

theorem visit_course {rules : List Rule} {limit : Nat} {past : List Entry}
    {node : Node} {ctx : Context}
    (h : (visit rules (limit + 1) past node ctx).Completes) :
    Visit.Course rules limit past node ctx
      (visit rules (limit + 1) past node ctx) := by
  generalize henter : enterRules 0 rules
    (.visited node.kind ctx.depth ctx.childIndex :: past) node
    { ctx with current := some node.kind } = result
  obtain ⟨entered, exits⟩ := result
  by_cases hentered : entered.verdict = .kept
  · generalize hvisits : visitAll (visit rules limit) entered.node.kind 0
      entered.node.children (entered.journal.reverse ++ _ :: past)
      entered.context = below
    by_cases hbelow : below.verdict = .kept
    · rw [visit_eq_of_kept henter hentered hvisits hbelow] at h ⊢
      exact .left henter hentered hvisits hbelow rfl rfl h
    · rw [visit_eq_of_stopped henter hentered hvisits hbelow] at h
      refine (h.elim hbelow ?_).elim
      rw [← hvisits]
      exact visitAll_not_removed _ _ _ _ _ _
  · rw [visit_eq_of_not_kept henter hentered] at h ⊢
    exact .removed henter (h.resolve_left hentered)

section

variable {P : Context → Prop}
  (hsettle : ∀ {α : Type} (reply : Reply α) (ctx : Context) (entry : Entry),
    P ctx → (reply.settle ctx entry).Completes →
      P (reply.settle ctx entry).context)

include hsettle

theorem enterRules_keeps (index : Nat) (rules : List Rule) (past : List Entry)
    (node : Node) {ctx : Context} (hctx : P ctx)
    (h : (enterRules index rules past node ctx).1.Completes) :
    P (enterRules index rules past node ctx).1.context := by
  induction rules generalizing index past node ctx with
  | nil => exact hctx
  | cons rule rules ih =>
      have hfirst := hsettle (rule.enter past node ctx) ctx
        (.invoked .enter index node ctx) hctx
      rw [enterRules] at h ⊢
      generalize (rule.enter past node ctx).settle ctx
        (.invoked .enter index node ctx) = v at *
      by_cases hkept : v.verdict = .kept
      · simp only [hkept] at h ⊢
        exact ih _ _ _ (hfirst (.inl hkept)) h
      · simp only at h ⊢
        exact hfirst h

theorem runExits_keeps (exits : List (Nat × ExitAction)) (past : List Entry)
    (node : Node) {ctx : Context} (hctx : P ctx)
    (h : (runExits exits past node ctx).Completes) :
    P (runExits exits past node ctx).context := by
  induction exits generalizing past node ctx with
  | nil => exact hctx
  | cons exit exits ih =>
      obtain ⟨index, action⟩ := exit
      have hfirst := hsettle (action past node ctx) ctx
        (.invoked .exit index node ctx) hctx
      rw [runExits] at h ⊢
      generalize (action past node ctx).settle ctx
        (.invoked .exit index node ctx) = v at *
      by_cases hkept : v.verdict = .kept
      · simp only [hkept] at h ⊢
        exact ih _ _ (hfirst (.inl hkept)) h
      · simp only at h ⊢
        exact hfirst h

end

theorem visitAll_keeps {P : Context → Prop}
    {visitOne : List Entry → Node → Context → Visit}
    (hmoves : ∀ ctx current parent childIndex depth, P ctx →
      P { ctx with current, parent, childIndex, depth })
    (hone : ∀ past node ctx, P ctx → (visitOne past node ctx).Completes →
      P (visitOne past node ctx).context)
    (parent : Kind) (index : Nat) (nodes : List Node) (past : List Entry)
    {ctx : Context} (hctx : P ctx)
    (h : (visitAll visitOne parent index nodes past ctx).verdict = .kept) :
    P (visitAll visitOne parent index nodes past ctx).context := by
  induction nodes generalizing index past ctx with
  | nil => exact hctx
  | cons node nodes ih =>
      obtain ⟨hcompletes, next, hlater, hall⟩ := visitAll_cons_of_kept h
      rw [hall]
      apply ih _ _ _ hlater
      apply hmoves
      exact hone past node _ (hmoves ctx ctx.current _ _ _ hctx) hcompletes

/-- What every answer of a rule keeps, and every move from one place to another,
a visit keeps. -/
theorem visit_keeps {P : Context → Prop}
    (hsettle : ∀ {α : Type} (reply : Reply α) (ctx : Context) (entry : Entry),
      P ctx → (reply.settle ctx entry).Completes →
        P (reply.settle ctx entry).context)
    (hmoves : ∀ ctx current parent childIndex depth, P ctx →
      P { ctx with current, parent, childIndex, depth })
    (rules : List Rule) (limit : Nat) (past : List Entry) (node : Node)
    {ctx : Context} (hctx : P ctx)
    (h : (visit rules limit past node ctx).Completes) :
    P (visit rules limit past node ctx).context := by
  induction limit generalizing past node ctx with
  | zero => simp [visit, Visit.Completes] at h
  | succ limit ih =>
      have harrive := enterRules_keeps hsettle 0 rules
        (.visited node.kind ctx.depth ctx.childIndex :: past) node
        (hmoves ctx (some node.kind) ctx.parent ctx.childIndex ctx.depth hctx)
      have hcourse := visit_course h
      generalize visit rules (limit + 1) past node ctx = v at hcourse ⊢
      cases hcourse with
      | removed henter hentered =>
          rw [henter] at harrive
          exact harrive (.inr hentered)
      | left henter hentered hvisits hbelow _ hexits hlast =>
          rw [henter] at harrive
          have hinside := visitAll_keeps hmoves
            (fun past node ctx hctx => ih past node hctx) _ 0 _ _
            (harrive (.inl hentered)) (by rw [hvisits, hbelow])
          rw [hvisits] at hinside
          subst hexits
          exact runExits_keeps hsettle _ _ _ (hmoves _ _ _ _ _ hinside) hlast

theorem visit_pending (rules : List Rule) (limit : Nat) (past : List Entry)
    (node : Node) {ctx : Context} (hpending : ctx.pending = none)
    (h : (visit rules limit past node ctx).Completes) :
    (visit rules limit past node ctx).context.pending = none := by
  refine visit_keeps (P := fun ctx => ctx.pending = none)
    (fun reply ctx entry _ hcompletes => ?_) (fun _ _ _ _ _ h => h)
    rules limit past node hpending h
  apply reply.settle_pending
  intro cause
  rcases hcompletes with hverdict | hverdict <;> simp [hverdict]

theorem verdict_rewrite (limit : Nat) (o : RenderOptions) (rules : List Rule)
    {root : Node} (hroot : root.kind = .root) :
    (rewrite limit o rules root).verdict =
      (visit rules limit [] root
        { ruleCount := rules.length, options := o }).verdict := by
  rw [rewrite, if_neg (not_not_intro hroot)]
  simp only
  split
  · next hkept => exact hkept.symm
  · rfl

theorem rewrite_eq_of_kept {limit : Nat} {o : RenderOptions}
    {rules : List Rule} {root : Node} {v : Visit} (hroot : root.kind = .root)
    (hvisit : visit rules limit [] root
      { ruleCount := rules.length, options := o } = v)
    (hkept : v.verdict = .kept) :
    rewrite limit o rules root =
      ⟨v.node, v.journal ++ [.finished rules.length v.node], .kept⟩ := by
  rw [rewrite, if_neg (not_not_intro hroot)]
  simp only [hvisit, hkept]

end MarkupTemplate
