/-
The rules that attach render expressions.  A text becomes a string literal, an
element a call of the builder on its tag and the expressions below it, and the
root the render function.
-/
import MarkupTemplate.Rewrite.Pass

namespace MarkupTemplate

def childExprs (nodes : List Node) : List Expr :=
  nodes.filterMap Node.expr?

/-- The call that builds an element.  Several expressions below it are passed
as an array. -/
def builderCall (builder tag : String) (below : List Expr) : Expr :=
  .call builder <| .string tag :: match below with
    | [] => []
    | [e] => [e]
    | es => [.array es]

/-- The expression that a render function returns. -/
def returnedExpr? (policy : MultiRoot) (exprs : List Expr) : Option Expr :=
  match policy, exprs with
  | _, [] => none
  | .firstOnly, e :: _ => some e
  | .array, [e] => some e
  | .array, es => some (.array es)

def renderFunction (options : RenderOptions) (exprs : List Expr) : Expr :=
  .function options.renderFunction []
    ((returnedExpr? options.multiRoot exprs).toList.map .returned)

namespace Rule

def text : Rule where
  enter _ node _ :=
    let node := match node with
      | .text content span _ => .text content span (some (.string content))
      | other => other
    ⟨node, [], .ok none⟩

def elementExit : ExitAction := fun _ node ctx =>
  let node := match node with
    | .element tag attributes children selfClosing span _ =>
        .element tag attributes children selfClosing span
          (some (builderCall ctx.options.builder tag (childExprs children)))
    | other => other
  ⟨node, [], .ok ()⟩

/-- Elements, once what is below them has expressions. -/
def element : Rule where
  enter _ node _ :=
    ⟨node, [], .ok (if node.kind = .element then some elementExit else none)⟩

def rootExit : ExitAction := fun _ node ctx =>
  match node with
  | .root children span _ =>
      let exprs := childExprs children
      let acts :=
        if ctx.options.multiRoot = .firstOnly ∧ 1 < exprs.length then
          [Act.say (.severalRoots exprs.length)]
        else []
      ⟨.root children span (some (renderFunction ctx.options exprs)), acts,
        .ok ()⟩
  | other => ⟨other, [], .ok ()⟩

/-- The root, once what is below it has expressions. -/
def root : Rule where
  enter _ node _ :=
    ⟨node, [], .ok (if node.kind = .root then some rootExit else none)⟩

/-- The rules of an ordinary pass. -/
def defaults : List Rule := [text, element, root]

end Rule

/-- Attach render expressions.  The rules add no level to a tree, so its own
height is limit enough. -/
def attachExprs (options : RenderOptions) (root : Node) : Pass :=
  rewrite root.height options Rule.defaults root

end MarkupTemplate
