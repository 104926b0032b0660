/-
The tree of a template.  Every node carries the stretch of the source that it
came from and, once a pass has attached one, its render expression.
-/
import MarkupTemplate.Source.Cursor
import MarkupTemplate.Script.Expr

namespace MarkupTemplate

inductive Kind where
  | root
  | element
  | text
  | interpolation
  | comment
  deriving Repr, DecidableEq, Inhabited

def Kind.name : Kind → String
  | root => "Root"
  | element => "Element"
  | text => "Text"
  | interpolation => "Interpolation"
  | comment => "Comment"

/-- An attribute of a start tag.  The value is kept without its quotes. -/
structure Attribute where
  name : String
  value : String
  span : Span
  deriving Repr, DecidableEq, Inhabited

inductive Node where
  | root (children : List Node) (span : Span) (expr : Option Expr)
  | element (tag : String) (attributes : List Attribute) (children : List Node)
      (selfClosing : Bool) (span : Span) (expr : Option Expr)
  | text (content : String) (span : Span) (expr : Option Expr)
  | interpolation (expression : String) (span : Span) (expr : Option Expr)
  | comment (content : String) (span : Span) (expr : Option Expr)
  deriving Repr, BEq

namespace Node

instance : Inhabited Node := ⟨.root [] default none⟩

def kind : Node → Kind
  | root .. => .root
  | element .. => .element
  | text .. => .text
  | interpolation .. => .interpolation
  | comment .. => .comment

def span : Node → Span
  | root _ span _ => span
  | element _ _ _ _ span _ => span
  | text _ span _ => span
  | interpolation _ span _ => span
  | comment _ span _ => span

def expr? : Node → Option Expr
  | root _ _ expr => expr
  | element _ _ _ _ _ expr => expr
  | text _ _ expr => expr
  | interpolation _ _ expr => expr
  | comment _ _ expr => expr

def attach (e : Expr) : Node → Node
  | root children span _ => root children span (some e)
  | element tag attributes children selfClosing span _ =>
      element tag attributes children selfClosing span (some e)
  | text content span _ => text content span (some e)
  | interpolation expression span _ => interpolation expression span (some e)
  | comment content span _ => comment content span (some e)

/-- The nodes directly below; leaves have none. -/
def children : Node → List Node
  | root children _ _ => children
  | element _ _ children _ _ _ => children
  | _ => []

/-- Put other nodes below.  Leaves stay as they are. -/
def withChildren (nodes : List Node) : Node → Node
  | root _ span expr => root nodes span expr
  | element tag attributes _ selfClosing span expr =>
      element tag attributes nodes selfClosing span expr
  | leaf => leaf

/-- The tag, content or expression; the root has none. -/
def label? : Node → Option String
  | root .. => none
  | element tag .. => some tag
  | text content _ _ => some content
  | interpolation expression _ _ => some expression
  | comment content _ _ => some content

/-- Put another tag, content or expression in place.  The root stays as it
is. -/
def withLabel (label : String) : Node → Node
  | root children span expr => root children span expr
  | element _ attributes children selfClosing span expr =>
      element label attributes children selfClosing span expr
  | text _ span expr => text label span expr
  | interpolation _ span expr => interpolation label span expr
  | comment _ span expr => comment label span expr

/-- The value of the first attribute of that name. -/
def attribute? (name : String) : Node → Option String
  | element _ attributes _ _ _ _ =>
      (attributes.find? (·.name == name)).map (·.value)
  | _ => none

/-- A new element around one node, made by no part of the source. -/
def wrap (tag : String) (node : Node) : Node :=
  element tag [] [node] false ⟨0, 0⟩ none

mutual

/-- The number of levels of a tree. -/
def height : Node → Nat
  | root children _ _ => heights children + 1
  | element _ _ children _ _ _ => heights children + 1
  | _ => 1

def heights : List Node → Nat
  | [] => 0
  | node :: nodes => max (height node) (heights nodes)

end

mutual

/-- The nodes of a tree with their depths, each node before those below it. -/
def preorder (depth : Nat) : Node → List (Nat × Node)
  | root children span expr =>
      (depth, root children span expr) :: preorders (depth + 1) children
  | element tag attributes children selfClosing span expr =>
      (depth, element tag attributes children selfClosing span expr)
        :: preorders (depth + 1) children
  | leaf => [(depth, leaf)]

def preorders (depth : Nat) : List Node → List (Nat × Node)
  | [] => []
  | node :: nodes => preorder depth node ++ preorders depth nodes

end

/-- A node's line of the outline: two dashes for each level, its kind and,
unless it is empty, its label. -/
def outlineLine (depth : Nat) (node : Node) : String :=
  let label := node.label?.getD ""
  "".pushn '-' (2 * depth) ++ node.kind.name
    ++ (if label.isEmpty then "" else ": " ++ label) ++ "\n"

/-- The outline of a tree, a line for each node in preorder. -/
def outline (node : Node) : String :=
  String.join ((node.preorder 0).map fun (depth, n) => outlineLine depth n)

end Node

end MarkupTemplate
