/-
Compiling a template: it is read, render expressions are attached to its tree,
and the expression of the root is written out.  Each stage has its own part of
the settings, and leaves events behind for a log.
-/
import MarkupTemplate.Content.Read
import MarkupTemplate.Rewrite.Default
import MarkupTemplate.Script.Writer

namespace MarkupTemplate

/-- How a template is compiled. -/
structure Settings where
  reading : ReadOptions := {}
  rendering : RenderOptions := {}
  style : Style := {}
  /-- Whether a template with any problem is refused. -/
  strict : Bool := false
  deriving Repr, DecidableEq, Inhabited

inductive CompileError where
  /-- The template has problems, and the settings are strict. -/
  | problems (diagnostics : List Diagnostic)
  | rewriting (cause : RewriteError)
  | noRenderFunction
  deriving Repr, DecidableEq

def CompileError.message : CompileError → String
  | problems diagnostics =>
      "parse errors: " ++ "; ".intercalate (diagnostics.map Diagnostic.message)
  | rewriting cause => "transform error: " ++ cause.message
  | noRenderFunction => "transform produced no render function"

structure Compiled where
  code : String
  diagnostics : List Diagnostic
  deriving Repr, DecidableEq

/-- The written root of a tree after a pass. -/
def Pass.code (pass : Pass) (style : Style) : Except CompileError String :=
  match pass.verdict, pass.root.expr? with
  | .failed cause, _ => .error (.rewriting cause)
  | .kept, some e => .ok (generate style e)
  | _, _ => .error .noRenderFunction

def compile (settings : Settings) (source : String) :
    Except CompileError Compiled :=
  let template := Template.read settings.reading source
  if settings.strict ∧ template.diagnostics ≠ [] then
    .error (.problems template.diagnostics)
  else
    let pass := attachExprs settings.rendering template.root
    (pass.code settings.style).map fun code => ⟨code, template.diagnostics⟩

/-! ## Events -/

inductive Level where
  | trace
  | debug
  | info
  | warn
  deriving Repr, DecidableEq

def Level.name : Level → String
  | trace => "TRACE"
  | debug => "DEBUG"
  | info => "INFO"
  | warn => "WARN"

inductive FieldValue where
  | number (n : Nat)
  | text (s : String)
  deriving Repr, DecidableEq

def FieldValue.display : FieldValue → String
  | number n => toString n
  | text s => s

structure Event where
  level : Level
  message : String
  fields : List (String × FieldValue)
  deriving Repr, DecidableEq

def Event.line (e : Event) : String :=
  " ".intercalate (e.level.name :: e.message ::
    e.fields.map fun (name, value) => name ++ "=" ++ value.display)

def Span.text (span : Span) : String :=
  toString span.start ++ ".." ++ toString span.stop

def Note.event : Note → Event
  | startTag name offset =>
      ⟨.trace, "parsed start tag",
        [("tag", .text name), ("offset", .number offset)]⟩
  | problem diagnostic =>
      ⟨.warn, diagnostic.message, [("span", .text diagnostic.span.text)]⟩

def Template.events (t : Template) : List Event :=
  t.notes.map Note.event ++
    [⟨.debug, "parsed template",
      [("nodes", .number t.root.children.length),
        ("diagnostics", .number t.diagnostics.length)]⟩]

/-- The event of an entry of a journal.  What the rules do among themselves is
not told. -/
def Entry.event? : Entry → Option Event
  | visited kind depth index =>
      some ⟨.trace, "enter",
        [("kind", .text kind.name), ("depth", .number depth),
          ("index", .number index)]⟩
  | invoked .. => none
  | requested (.replace node) index =>
      some ⟨.trace, "replacing node",
        [("index", .number index), ("kind", .text node.kind.name)]⟩
  | requested .remove index =>
      some ⟨.trace, "removing node", [("index", .number index)]⟩
  | remarked (.severalRoots count) =>
      some ⟨.warn, "template has several root nodes, rendering only the first",
        [("roots", .number count)]⟩
  | remarked _ => none
  | finished rules root =>
      some ⟨.debug, "transformed template", ("rules", .number rules) ::
        (root.expr?.toList.map fun e => ("generated", .text e.typeName))⟩

def Pass.events (p : Pass) : List Event :=
  p.journal.filterMap Entry.event?

def Expr.generatedEvent (style : Style) (e : Expr) : Event :=
  ⟨.debug, "generated code",
    [("node", .text e.typeName),
      ("bytes", .number (byteLength (generate style e).toList))]⟩

def compileEvents (settings : Settings) (source : String) : List Event :=
  let template := Template.read settings.reading source
  let pass := attachExprs settings.rendering template.root
  template.events ++
    if settings.strict ∧ template.diagnostics ≠ [] then []
    else pass.events ++
      match pass.root.expr?, compile settings source with
      | some e, .ok compiled =>
          [e.generatedEvent settings.style,
            ⟨.debug, "compiled template",
              [("source_bytes", .number (byteLength source.toList)),
                ("code_bytes", .number (byteLength compiled.code.toList)),
                ("diagnostics", .number compiled.diagnostics.length)]⟩]
      | _, _ => []

end MarkupTemplate
