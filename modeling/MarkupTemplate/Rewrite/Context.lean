/-
What a rule knows about the node that it is handed, and the changes it may ask
for.  A change is asked for through the context and takes effect once the rule
has returned; the last one counts, and after a removal no other is accepted.
-/
import MarkupTemplate.Node

namespace MarkupTemplate

/-- What a render function returns for several top-level expressions. -/
inductive MultiRoot where
  | firstOnly
  | array
  deriving Repr, DecidableEq, Inhabited

structure RenderOptions where
  /-- The function that builds an element. -/
  builder : String := "h"
  /-- The name of the render function. -/
  renderFunction : String := "render"
  multiRoot : MultiRoot := .firstOnly
  deriving Repr, DecidableEq, Inhabited

inductive RewriteError where
  | replaceRoot
  | removeRoot
  | nodeRemoved
  | notRoot (kind : Kind)
  deriving Repr, DecidableEq

def RewriteError.message : RewriteError → String
  | replaceRoot => "the root node cannot be replaced"
  | removeRoot => "the root node cannot be removed"
  | nodeRemoved => "the current node has already been removed"
  | notRoot kind => "expected a Root node, found " ++ kind.name

/-- A change of the tree that a rule asks for. -/
inductive Request where
  | replace (node : Node)
  | remove
  deriving Repr, BEq

/-- Where a pass stands. -/
structure Context where
  /-- The kind of the node that is visited; none once it has been removed. -/
  current : Option Kind := none
  /-- The kind of the node above; none at the top. -/
  parent : Option Kind := none
  /-- The position among the nodes below the parent. -/
  childIndex : Nat := 0
  /-- The number of nodes above. -/
  depth : Nat := 0
  /-- The change to make when the rule returns. -/
  pending : Option Request := none
  ruleCount : Nat
  options : RenderOptions
  deriving Repr, BEq

namespace Context

def ask (ctx : Context) (request : Request) : Except RewriteError Context :=
  if ctx.parent.isNone then
    match request with
    | .replace _ => .error .replaceRoot
    | .remove => .error .removeRoot
  else if ctx.current.isNone then .error .nodeRemoved
  else
    let current := match request with
      | .replace node => some node.kind
      | .remove => none
    .ok { ctx with current, pending := some request }

end Context

end MarkupTemplate
