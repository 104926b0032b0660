/-
Rules written as data: a pattern for the nodes that a rule takes up and lists
of actions for the two times at which it runs.
-/
import MarkupTemplate.Rewrite.Pass

namespace MarkupTemplate

inductive Action where
  | remove
  | replace (node : Node)
  /-- Put an element with this tag around the node. -/
  | wrap (tag : String)
  | attach (expr : Expr)
  | setLabel (label : String)
  | append (child : Node)
  /-- Drop everything below the node. -/
  | clear
  deriving Repr, BEq

namespace Action

def name : Action → String
  | remove => "remove"
  | replace _ => "replace"
  | wrap _ => "wrap"
  | attach _ => "attach"
  | setLabel _ => "label"
  | append _ => "append"
  | clear => "clear"

/-- The change to ask for, if the action is one. -/
def request? (node : Node) : Action → Option Request
  | remove => some .remove
  | replace other => some (.replace other)
  | wrap tag => some (.replace (node.wrap tag))
  | _ => none

def edit (node : Node) : Action → Node
  | attach expr => node.attach expr
  | setLabel label => node.withLabel label
  | append child => node.withChildren (node.children ++ [child])
  | clear => node.withChildren []
  | _ => node

end Action

/-- An action, and whether its refusal is passed over. -/
structure Step where
  action : Action
  ignore : Bool := false
  deriving Repr, BEq

def Reply.after {α : Type} (acts : List Act) (reply : Reply α) : Reply α :=
  { reply with acts := acts ++ reply.acts }

/-- Take steps on a node.  A refusal that is not passed over ends them. -/
def runSteps : List Step → Node → Context → Reply Unit
  | [], node, _ => ⟨node, [], .ok ()⟩
  | step :: steps, node, ctx =>
      let said (refusal : Option RewriteError) (ctx : Context) : Act :=
        .say (.acted step.action.name refusal ctx.current)
      match step.action.request? node with
      | none =>
          (runSteps steps (step.action.edit node) ctx).after [said none ctx]
      | some request =>
          match ctx.ask request with
          | .ok next =>
              (runSteps steps node next).after [.ask request, said none next]
          | .error cause =>
              if step.ignore then
                (runSteps steps node ctx).after
                  [.ask request, said (some cause) ctx]
              else ⟨node, [.ask request, said (some cause) ctx], .error cause⟩

/-- Conditions on a node and its place; those that are absent always hold. -/
structure Pattern where
  kind : Option Kind := none
  label : Option String := none
  parent : Option Kind := none
  depth : Option Nat := none
  index : Option Nat := none
  deriving Repr, DecidableEq

def Pattern.holds (p : Pattern) (node : Node) (ctx : Context) : Bool :=
  p.kind.all (· == node.kind) && p.label.all (some · == node.label?)
    && p.parent.all (some · == ctx.parent) && p.depth.all (· == ctx.depth)
    && p.index.all (· == ctx.childIndex)

structure Recipe where
  name : String
  pattern : Pattern := {}
  enter : List Step := []
  exit : Option (List Step) := none
  deriving Repr, BEq

namespace Recipe

def exitAction (recipe : Recipe) (steps : List Step) :
    ExitAction := fun _ node ctx =>
  (runSteps steps node ctx).after [.say (.visit recipe.name .exit node ctx)]

/-- The rule of a recipe.  A node is matched when it is entered. -/
def toRule (recipe : Recipe) : Rule where
  enter _ node ctx :=
    if recipe.pattern.holds node ctx then
      let reply := (runSteps recipe.enter node ctx).after
        [.say (.visit recipe.name .enter node ctx)]
      ⟨reply.node, reply.acts, reply.outcome.map fun _ =>
        recipe.exit.map recipe.exitAction⟩
    else ⟨node, [], .ok none⟩

end Recipe

end MarkupTemplate
