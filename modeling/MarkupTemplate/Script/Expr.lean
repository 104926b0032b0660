/-
Expressions of the generated program, how generated text looks, and the text of
an expression at an indentation level as a plain recursion on the expression.  A
render function is a function declaration whose body returns calls, string
literals and arrays.
-/

namespace MarkupTemplate

inductive Expr where
  | function (name : String) (params body : List Expr)
  | returned (argument : Expr)
  | call (callee : String) (arguments : List Expr)
  | string (value : String)
  | identifier (name : String)
  | array (elements : List Expr)
  deriving Repr, BEq, Inhabited

namespace Expr

def typeName : Expr → String
  | function .. => "FunctionDeclaration"
  | returned _ => "ReturnStatement"
  | call .. => "CallExpression"
  | string _ => "StringLiteral"
  | identifier _ => "Identifier"
  | array _ => "ArrayExpression"

def callee? : Expr → Option String
  | call callee _ => some callee
  | _ => none

def stringValue? : Expr → Option String
  | string value => some value
  | _ => none

def functionName? : Expr → Option String
  | function name _ _ => some name
  | _ => none

end Expr

/-- The character around string literals. -/
inductive Quote where
  | single
  | double
  deriving Repr, DecidableEq, Inhabited

def Quote.char : Quote → Char
  | single => '\''
  | double => '"'

/-- The look of generated text: blanks for each indentation level, and the
quote around string literals. -/
structure Style where
  indentWidth : Nat := 2
  quote : Quote := .single
  deriving Repr, DecidableEq, Inhabited

/-- A line break and the indentation of a level. -/
def Style.lineStart (style : Style) (level : Nat) : String :=
  "\n".pushn ' ' (style.indentWidth * level)

/-- A string literal's text.  The value stands between quotes unchanged. -/
def Style.quoted (style : Style) (value : String) : String :=
  (("".push style.quote.char) ++ value).push style.quote.char

namespace Expr

mutual

/-- The text of an expression whose first line is indented by `level`. -/
def render (style : Style) (level : Nat) : Expr → String
  | function name params body =>
      "function " ++ name ++ "(" ++ renderList style level params ++ ") \x7b"
        ++ renderLines style (level + 1) body ++ style.lineStart level ++ "\x7d"
  | returned argument => "return " ++ render style level argument
  | call callee arguments =>
      callee ++ "(" ++ renderList style level arguments ++ ")"
  | string value => style.quoted value
  | identifier name => name
  | array elements => "[" ++ renderList style level elements ++ "]"

def renderList (style : Style) (level : Nat) : List Expr → String
  | [] => ""
  | e :: es => render style level e ++ renderMore style level es

def renderMore (style : Style) (level : Nat) : List Expr → String
  | [] => ""
  | e :: es => ", " ++ render style level e ++ renderMore style level es

def renderLines (style : Style) (level : Nat) : List Expr → String
  | [] => ""
  | e :: es =>
      style.lineStart level ++ render style level e
        ++ renderLines style level es

end

end Expr

end MarkupTemplate
