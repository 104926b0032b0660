/-
Rules and the journal of a pass.  A rule is handed a node and the context, and
with them the journal so far.  It answers with the node as it has edited it,
with what it asked for and said on the way, and with its outcome: an error, or
possibly an action for the moment when the nodes below have been visited.
-/
import MarkupTemplate.Rewrite.Context

namespace MarkupTemplate

/-- The two times at which rules run on a node. -/
inductive Phase where
  | enter
  | exit
  deriving Repr, DecidableEq

/-- What rules say about their work. -/
inductive Remark where
  /-- More than one top-level expression, of which only the first is
  rendered. -/
  | severalRoots (count : Nat)
  /-- A named rule is at a node. -/
  | visit (rule : String) (phase : Phase) (node : Node) (context : Context)
  /-- An action has been taken or refused; `current` is what the context then
  shows. -/
  | acted (action : String) (refusal : Option RewriteError)
      (current : Option Kind)
  deriving Repr, BEq

/-- What a rule does besides editing its node. -/
inductive Act where
  | ask (request : Request)
  | say (remark : Remark)
  deriving Repr, BEq

inductive Entry where
  /-- A node comes up. -/
  | visited (kind : Kind) (depth index : Nat)
  /-- A rule runs on a node, at either time. -/
  | invoked (phase : Phase) (rule : Nat) (node : Node) (context : Context)
  /-- A change was asked for and accepted. -/
  | requested (request : Request) (index : Nat)
  | remarked (remark : Remark)
  /-- The pass is complete. -/
  | finished (rules : Nat) (root : Node)
  deriving Repr, BEq

structure Reply (α : Type) where
  node : Node
  acts : List Act := []
  outcome : Except RewriteError α

/-- How a rule answers a call.  Besides the node and the context it is told what
has happened in the pass so far, the latest first: all that it could remember of
earlier calls. -/
abbrev Handler (α : Type) := List Entry → Node → Context → Reply α

/-- What a rule does once the nodes below have been visited. -/
abbrev ExitAction := Handler Unit

structure Rule where
  enter : Handler (Option ExitAction)

/-- Carry out what a rule did.  A change that is refused leaves no trace. -/
def Context.perform (ctx : Context) : List Act → Context × List Entry
  | [] => (ctx, [])
  | .ask request :: acts =>
      match ctx.ask request with
      | .ok next =>
          let (last, entries) := next.perform acts
          (last, .requested request ctx.childIndex :: entries)
      | .error _ => ctx.perform acts
  | .say remark :: acts =>
      let (last, entries) := ctx.perform acts
      (last, .remarked remark :: entries)

end MarkupTemplate
