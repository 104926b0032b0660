/-
A writer that keeps the text written so far and the current indentation, and
the generation of an expression's text through it.
-/
import MarkupTemplate.Script.Expr

namespace MarkupTemplate

/-- Text under construction. -/
structure Writer where
  style : Style
  text : String := ""
  level : Nat := 0
  deriving Repr, DecidableEq, Inhabited

namespace Writer

def push (w : Writer) (text : String) : Writer :=
  { w with text := w.text ++ text }

def newline (w : Writer) : Writer :=
  w.push (w.style.lineStart w.level)

def indent (w : Writer) : Writer :=
  { w with level := w.level + 1 }.newline

/-- Start a line one level further out; the outermost level stays. -/
def deindent (w : Writer) : Writer :=
  { w with level := w.level - 1 }.newline

inductive Op where
  | push (text : String)
  | newline
  | indent
  | deindent
  deriving Repr, DecidableEq

def apply (w : Writer) : Op → Writer
  | .push text => w.push text
  | .newline => w.newline
  | .indent => w.indent
  | .deindent => w.deindent

/-- The writer after each of the operations. -/
def history (w : Writer) : List Op → List Writer
  | [] => []
  | op :: ops => w.apply op :: (w.apply op).history ops

mutual

def emit (w : Writer) : Expr → Writer
  | .function name params body =>
      let header := emitList (((w.push "function ").push name).push "(") params
      (emitBody (header.push ") \x7b") body).push "\x7d"
  | .returned argument => emit (w.push "return ") argument
  | .call callee arguments =>
      (emitList ((w.push callee).push "(") arguments).push ")"
  | .string value => w.push (w.style.quoted value)
  | .identifier name => w.push name
  | .array elements => (emitList (w.push "[") elements).push "]"

def emitList (w : Writer) : List Expr → Writer
  | [] => w
  | e :: es => emitMore (emit w e) es

def emitMore (w : Writer) : List Expr → Writer
  | [] => w
  | e :: es => emitMore (emit (w.push ", ") e) es

/-- Write the statements of a function one level deeper, and come back. -/
def emitBody (w : Writer) : List Expr → Writer
  | [] => w.newline
  | e :: es => (emitLines (emit w.indent e) es).deindent

def emitLines (w : Writer) : List Expr → Writer
  | [] => w
  | e :: es => emitLines (emit w.newline e) es

end

end Writer

def generate (style : Style) (e : Expr) : String :=
  (Writer.emit { style } e).text

end MarkupTemplate
