/-
A pass of rules over a tree.

A node is entered by every rule in order, then the nodes below it are visited,
and then the exit actions that its rules left behind run, the last one first.
A node that is removed is not visited any further.  An error ends the pass and
leaves the tree as it is at that moment.

Rules may put larger trees in place of smaller ones, so a pass is given a limit
on the depth that it visits.
-/
import MarkupTemplate.Rewrite.Rule

namespace MarkupTemplate

inductive Verdict where
  | kept
  | removed
  | failed (cause : RewriteError)
  /-- The limit on the depth was reached. -/
  | unfinished
  deriving Repr, DecidableEq

/-- A visit of one node: the node and the context as the visit leaves them. -/
structure Visit where
  node : Node
  context : Context
  journal : List Entry
  verdict : Verdict
  deriving Repr, BEq

structure Visits where
  nodes : List Node
  context : Context
  journal : List Entry
  verdict : Verdict
  deriving Repr, BEq

/-- Settle what a rule has answered: the change that it asked for is made,
unless the rule failed. -/
def Reply.settle {α : Type} (reply : Reply α) (ctx : Context)
    (entry : Entry) : Visit :=
  let (ctx, entries) := ctx.perform reply.acts
  let journal := entry :: entries
  match reply.outcome, ctx.pending with
  | .error cause, _ => ⟨reply.node, ctx, journal, .failed cause⟩
  | .ok _, none => ⟨reply.node, ctx, journal, .kept⟩
  | .ok _, some (.replace node) =>
      ⟨node, { ctx with pending := none }, journal, .kept⟩
  | .ok _, some .remove =>
      ⟨reply.node, { ctx with pending := none }, journal, .removed⟩

/-- Put entries in front of a visit's journal. -/
def Visit.after (entries : List Entry) (v : Visit) : Visit :=
  { v with journal := entries ++ v.journal }

/-- Enter a node with the rules in order, numbered from `index`.  The exit
actions come back in the order in which the rules gave them. -/
def enterRules (index : Nat) :
    List Rule → List Entry → Node → Context → Visit × List (Nat × ExitAction)
  | [], _, node, ctx => (⟨node, ctx, [], .kept⟩, [])
  | rule :: rules, past, node, ctx =>
      let reply := rule.enter past node ctx
      let v := reply.settle ctx (.invoked .enter index node ctx)
      match v.verdict with
      | .kept =>
          let (later, exits) := enterRules (index + 1) rules
            (v.journal.reverse ++ past) v.node v.context
          let exit := (reply.outcome.toOption.bind id).toList.map ((index, ·))
          (later.after v.journal, exit ++ exits)
      | _ => (v, [])

def runExits : List (Nat × ExitAction) → List Entry → Node → Context → Visit
  | [], _, node, ctx => ⟨node, ctx, [], .kept⟩
  | (index, action) :: actions, past, node, ctx =>
      let v := (action past node ctx).settle ctx (.invoked .exit index node ctx)
      match v.verdict with
      | .kept =>
          (runExits actions (v.journal.reverse ++ past) v.node v.context).after
            v.journal
      | _ => v

/-- Visit the nodes below a node of kind `parent`, from position `index` on.
The position of a removed node goes to the next one. -/
def visitAll (visitOne : List Entry → Node → Context → Visit) (parent : Kind)
    (index : Nat) : List Node → List Entry → Context → Visits
  | [], _, ctx => ⟨[], ctx, [], .kept⟩
  | node :: nodes, past, ctx =>
      let v := visitOne past node { ctx with
        parent := some parent
        childIndex := index
        depth := ctx.depth + 1 }
      let ctx := { v.context with depth := v.context.depth - 1 }
      let past := v.journal.reverse ++ past
      match v.verdict with
      | .kept =>
          let later := visitAll visitOne parent (index + 1) nodes past ctx
          { later with
            nodes := v.node :: later.nodes
            journal := v.journal ++ later.journal }
      | .removed =>
          let later := visitAll visitOne parent index nodes past ctx
          { later with journal := v.journal ++ later.journal }
      | verdict => ⟨v.node :: nodes, ctx, v.journal, verdict⟩

/-- Visit a node and what is below it, at most `limit` levels deep. -/
def visit (rules : List Rule) :
    (limit : Nat) → List Entry → Node → Context → Visit
  | 0, _, node, ctx => ⟨node, ctx, [], .unfinished⟩
  | limit + 1, past, node, ctx =>
      let arrival := Entry.visited node.kind ctx.depth ctx.childIndex
      let (entered, exits) := enterRules 0 rules (arrival :: past) node
        { ctx with current := some node.kind }
      match entered.verdict with
      | .kept =>
          let kind := entered.node.kind
          let below := visitAll (visit rules limit) kind 0 entered.node.children
            (entered.journal.reverse ++ arrival :: past) entered.context
          let node := entered.node.withChildren below.nodes
          let journal := arrival :: (entered.journal ++ below.journal)
          match below.verdict with
          | .kept =>
              let back := { below.context with
                parent := entered.context.parent
                childIndex := entered.context.childIndex
                current := some kind }
              (runExits exits.reverse (journal.reverse ++ past) node back).after
                journal
          | verdict => ⟨node, below.context, journal, verdict⟩
      | _ => entered.after [arrival]

/-- A pass over a tree: the tree as the pass leaves it, what happened, and how
the pass ended. -/
structure Pass where
  root : Node
  journal : List Entry
  verdict : Verdict
  deriving Repr, BEq

/-- Run rules over a tree, at most `limit` levels deep. -/
def rewrite (limit : Nat) (options : RenderOptions) (rules : List Rule)
    (root : Node) : Pass :=
  if root.kind ≠ .root then ⟨root, [], .failed (.notRoot root.kind)⟩
  else
    let v := visit rules limit [] root { ruleCount := rules.length, options }
    match v.verdict with
    | .kept => ⟨v.node, v.journal ++ [.finished rules.length v.node], .kept⟩
    | verdict => ⟨v.node, v.journal, verdict⟩

end MarkupTemplate
