/-
Writing through a writer and rendering by plain recursion make the same text.
Whatever a writer holds and however deep it is, writing an expression appends
the rendering at that level and leaves the level as it was.
-/
import Mathlib
import MarkupTemplate.Script.Writer

namespace MarkupTemplate

theorem toList_pushn (s : String) (c : Char) (n : Nat) :
    (s.pushn c n).toList = s.toList ++ List.replicate n c := by
  induction n with
  | zero => simp [String.pushn, Nat.repeat]
  | succ n ih =>
      rw [List.replicate_succ', ← List.append_assoc, ← ih, ← String.toList_push]
      rfl

theorem Style.toList_lineStart (style : Style) (level : Nat) :
    (style.lineStart level).toList =
      '\n' :: List.replicate (style.indentWidth * level) ' ' := by
  simp [Style.lineStart, toList_pushn]

theorem Style.toList_quoted (style : Style) (value : String) :
    (style.quoted value).toList =
      style.quote.char :: (value.toList ++ [style.quote.char]) := by
  simp [Style.quoted]

namespace Writer

@[simp] theorem push_push (w : Writer) (first later : String) :
    (w.push first).push later = w.push (first ++ later) := by
  simp [push, String.append_assoc]

@[simp] theorem push_style (w : Writer) (text : String) :
    (w.push text).style = w.style := rfl

@[simp] theorem push_level (w : Writer) (text : String) :
    (w.push text).level = w.level := rfl

theorem newline_eq (w : Writer) :
    w.newline = w.push (w.style.lineStart w.level) := rfl

@[simp] theorem indent_style (w : Writer) : w.indent.style = w.style := rfl

@[simp] theorem indent_level (w : Writer) : w.indent.level = w.level + 1 := rfl

/-- A level that was entered is left again, and what was written in it stays. -/
theorem deindent_indent_push (w : Writer) (text : String) :
    (w.indent.push text).deindent =
      w.push (w.style.lineStart (w.level + 1) ++ text ++
        w.style.lineStart w.level) := by
  simp [indent, deindent, newline, push, String.append_assoc]

mutual

/-- Writing an expression appends its rendering. -/
theorem emit_eq (w : Writer) :
    ∀ e : Expr, w.emit e = w.push (e.render w.style w.level)
  | .function name params body => by
      simp only [emit, emitList_eq _ params, emitBody_eq _ body, push_push,
        push_style, push_level, Expr.render, String.append_assoc]
  | .returned argument => by
      simp only [emit, emit_eq _ argument, push_push, push_style,
        push_level, Expr.render]
  | .call callee arguments => by
      simp only [emit, emitList_eq _ arguments, push_push, push_style,
        push_level, Expr.render, String.append_assoc]
  | .string value => rfl
  | .identifier name => rfl
  | .array elements => by
      simp only [emit, emitList_eq _ elements, push_push, push_style,
        push_level, Expr.render]

theorem emitList_eq (w : Writer) :
    ∀ es : List Expr, w.emitList es =
      w.push (Expr.renderList w.style w.level es)
  | [] => by simp [emitList, Expr.renderList, push]
  | e :: es => by
      simp only [emitList, emit_eq _ e, emitMore_eq _ es, push_push,
        push_style, push_level, Expr.renderList]

theorem emitMore_eq (w : Writer) :
    ∀ es : List Expr, w.emitMore es =
      w.push (Expr.renderMore w.style w.level es)
  | [] => by simp [emitMore, Expr.renderMore, push]
  | e :: es => by
      simp only [emitMore, emit_eq _ e, emitMore_eq _ es, push_push,
        push_style, push_level, Expr.renderMore]

theorem emitBody_eq (w : Writer) :
    ∀ es : List Expr, w.emitBody es =
      w.push (Expr.renderLines w.style (w.level + 1) es ++
        w.style.lineStart w.level)
  | [] => by simp [emitBody, newline_eq, Expr.renderLines]
  | e :: es => by
      simp only [emitBody, emit_eq _ e, emitLines_eq _ es, push_push,
        push_style, push_level, indent_style, indent_level,
        deindent_indent_push, Expr.renderLines, String.append_assoc]

theorem emitLines_eq (w : Writer) :
    ∀ es : List Expr, w.emitLines es =
      w.push (Expr.renderLines w.style w.level es)
  | [] => by simp [emitLines, Expr.renderLines, push]
  | e :: es => by
      simp only [emitLines, newline_eq, emit_eq _ e, emitLines_eq _ es,
        push_push, push_style, push_level, Expr.renderLines]

end

end Writer

/-- The generated text is the rendering at the outermost level. -/
theorem generate_eq_render (style : Style) (e : Expr) :
    generate style e = e.render style 0 := by
  simp [generate, Writer.emit_eq, Writer.push]

end MarkupTemplate
