/-
Writing an expression step by step.  The level of a writer goes up and down
while functions are written, wherever they stand in an expression, but each
level that is entered is left again, and no level is left that was not entered.
-/
import MarkupTemplate.Proofs.Rendering

namespace MarkupTemplate

namespace Expr

/-- The text of an expression at a level, where `inner` gives the texts of the
expressions right inside it. -/
def layout (style : Style) (inner : Nat → Expr → String)
    (level : Nat) : Expr → String
  | function name params body =>
      "function " ++ name ++ "(" ++
        ", ".intercalate (params.map (inner level)) ++ ") \x7b"
        ++ String.join (body.map fun e =>
          style.lineStart (level + 1) ++ inner (level + 1) e)
        ++ style.lineStart level ++ "\x7d"
  | returned argument => "return " ++ inner level argument
  | call callee arguments =>
      callee ++ "(" ++ ", ".intercalate (arguments.map (inner level)) ++ ")"
  | string value => style.quoted value
  | identifier name => name
  | array elements =>
      "[" ++ ", ".intercalate (elements.map (inner level)) ++ "]"

theorem renderList_eq_intercalate (style : Style) (level : Nat)
    (es : List Expr) :
    renderList style level es =
      ", ".intercalate (es.map (render style level)) := by
  induction es with
  | nil => rfl
  | cons e es ih =>
      cases es with
      | nil => simp [renderList, renderMore]
      | cons e' es =>
          rw [List.map_cons, List.map_cons, String.intercalate_cons_cons,
            ← List.map_cons, ← ih]
          simp only [renderList, renderMore, String.append_assoc]

theorem renderLines_eq_join (style : Style) (level : Nat) (es : List Expr) :
    renderLines style level es =
      String.join (es.map fun e =>
        style.lineStart level ++ render style level e) := by
  induction es with
  | nil => rfl
  | cons e es ih => rw [renderLines, ih, List.map_cons, String.join_cons]

/-- The rendering is the recursion through the layout. -/
theorem render_eq_layout (style : Style) (level : Nat) (e : Expr) :
    e.render style level = e.layout style (render style) level := by
  cases e <;> simp only [render, layout, renderList_eq_intercalate,
    renderLines_eq_join]

mutual

def ops (style : Style) : Expr → List Writer.Op
  | function name params body =>
      [.push "function ", .push name, .push "("] ++ opsList style params
        ++ [.push ") \x7b"] ++ opsBody style body ++ [.push "\x7d"]
  | returned argument => [.push "return "] ++ ops style argument
  | call callee arguments =>
      [.push callee, .push "("] ++ opsList style arguments ++ [.push ")"]
  | string value => [.push (style.quoted value)]
  | identifier name => [.push name]
  | array elements => [.push "["] ++ opsList style elements ++ [.push "]"]

def opsList (style : Style) : List Expr → List Writer.Op
  | [] => []
  | e :: es => ops style e ++ opsMore style es

def opsMore (style : Style) : List Expr → List Writer.Op
  | [] => []
  | e :: es => [.push ", "] ++ ops style e ++ opsMore style es

def opsBody (style : Style) : List Expr → List Writer.Op
  | [] => [.newline]
  | e :: es => [.indent] ++ (ops style e ++ opsLines style es) ++ [.deindent]

def opsLines (style : Style) : List Expr → List Writer.Op
  | [] => []
  | e :: es => [.newline] ++ ops style e ++ opsLines style es

end

end Expr

namespace Writer

def run (w : Writer) (ops : List Op) : Writer :=
  ops.foldl apply w

@[simp] theorem run_nil (w : Writer) : w.run [] = w := rfl

@[simp] theorem run_cons (w : Writer) (op : Op) (ops : List Op) :
    w.run (op :: ops) = (w.apply op).run ops := rfl

@[simp] theorem run_append (w : Writer) (first later : List Op) :
    w.run (first ++ later) = (w.run first).run later :=
  List.foldl_append

@[simp] theorem style_apply (w : Writer) (op : Op) :
    (w.apply op).style = w.style := by
  cases op <;> rfl

@[simp] theorem style_run (w : Writer) (ops : List Op) :
    (w.run ops).style = w.style := by
  induction ops generalizing w with
  | nil => rfl
  | cons op ops ih => rw [run_cons, ih, style_apply]

mutual

/-- Writing an expression is carrying out its operations. -/
theorem emit_eq_run (w : Writer) : ∀ e : Expr, w.emit e = w.run (e.ops w.style)
  | .function name params body => by
      simp [emit, Expr.ops, apply, emitList_eq_run _ params,
        emitBody_eq_run _ body]
  | .returned argument => by
      simp [emit, Expr.ops, apply, emit_eq_run _ argument]
  | .call callee arguments => by
      simp [emit, Expr.ops, apply, emitList_eq_run _ arguments]
  | .string value => rfl
  | .identifier name => rfl
  | .array elements => by
      simp [emit, Expr.ops, apply, emitList_eq_run _ elements]

theorem emitList_eq_run (w : Writer) :
    ∀ es : List Expr, w.emitList es = w.run (Expr.opsList w.style es)
  | [] => rfl
  | e :: es => by
      simp [emitList, Expr.opsList, emit_eq_run _ e, emitMore_eq_run _ es]

theorem emitMore_eq_run (w : Writer) :
    ∀ es : List Expr, w.emitMore es = w.run (Expr.opsMore w.style es)
  | [] => rfl
  | e :: es => by
      simp [emitMore, Expr.opsMore, apply, emit_eq_run _ e,
        emitMore_eq_run _ es]

theorem emitBody_eq_run (w : Writer) :
    ∀ es : List Expr, w.emitBody es = w.run (Expr.opsBody w.style es)
  | [] => rfl
  | e :: es => by
      simp [emitBody, Expr.opsBody, apply, emit_eq_run _ e,
        emitLines_eq_run _ es]

theorem emitLines_eq_run (w : Writer) :
    ∀ es : List Expr, w.emitLines es = w.run (Expr.opsLines w.style es)
  | [] => rfl
  | e :: es => by
      simp [emitLines, Expr.opsLines, apply, newline_eq, emit_eq_run _ e,
        emitLines_eq_run _ es]

end

/-- Operations that leave every level they enter, and no other. -/
structure Balanced (ops : List Op) : Prop where
  /-- At no time more levels have been left than entered. -/
  front : ∀ front, front <+: ops → front.count .deindent ≤ front.count .indent
  whole : ops.count .deindent = ops.count .indent

namespace Balanced

variable {ops first later : List Op}

/-- Operations that keep to one level. -/
theorem of_level (hindent : .indent ∉ ops) (hdeindent : .deindent ∉ ops) :
    Balanced ops := by
  constructor
  · intro front hfront
    have hnone : .deindent ∉ front := fun h => hdeindent (hfront.subset h)
    rw [List.count_eq_zero.mpr hnone]
    exact Nat.zero_le _
  · rw [List.count_eq_zero.mpr hindent, List.count_eq_zero.mpr hdeindent]

theorem append (hfirst : Balanced first) (hlater : Balanced later) :
    Balanced (first ++ later) := by
  constructor
  · intro front hfront
    rcases List.prefix_or_prefix_of_prefix hfront
      (List.prefix_append first later) with
      hwithin | ⟨more, rfl⟩
    · exact hfirst.front front hwithin
    · have hmore :=
        hlater.front more ((List.prefix_append_right_inj first).mp hfront)
      rw [List.count_append, List.count_append, hfirst.whole]
      exact Nat.add_le_add_left hmore _
  · rw [List.count_append, List.count_append, hfirst.whole, hlater.whole]

/-- What is balanced may be written one level deeper. -/
theorem deeper (h : Balanced ops) :
    Balanced ([.indent] ++ ops ++ [.deindent]) := by
  constructor
  · intro front hfront
    rcases List.prefix_cons_iff.mp hfront with rfl | ⟨inner, rfl, hinner⟩
    · exact Nat.le_refl _
    · rcases List.prefix_concat_iff.mp hinner with rfl | hinner
      · simp [h.whole]
      · have hcount := h.front inner hinner
        simp only [List.count_cons, beq_self_eq_true, if_true]
        exact Nat.le_succ_of_le hcount
  · simp [h.whole]

end Balanced

/-- An operation changes the level by what it enters and what it leaves, if
there is a level to leave. -/
theorem level_apply (w : Writer) {op : Op} (h : op = .deindent → 0 < w.level) :
    (w.apply op).level + [op].count .deindent =
      w.level + [op].count .indent := by
  cases op with
  | push text => rfl
  | newline => rfl
  | indent => rfl
  | deindent => exact Nat.sub_add_cancel (h rfl)

theorem count_append_deindent (ops : List Op) :
    (ops ++ [Op.deindent]).count .deindent = ops.count .deindent + 1 ∧
      (ops ++ [Op.deindent]).count .indent = ops.count .indent := by
  simp

/-- While no more levels are left than entered, there is always one to leave. -/
theorem level_run (w : Writer) {ops : List Op}
    (h : ∀ front, front <+: ops → front.count .deindent ≤ front.count .indent) :
    (w.run ops).level + ops.count .deindent = w.level + ops.count .indent := by
  induction ops using List.reverseRecOn with
  | nil => rfl
  | append_singleton ops op ih =>
      have hbefore := ih fun front hfront =>
        h front (hfront.trans (List.prefix_append _ _))
      have hlevel : op = .deindent → 0 < (w.run ops).level := by
        rintro rfl
        have hnow := h _ (List.prefix_refl _)
        rw [(count_append_deindent ops).1,
          (count_append_deindent ops).2] at hnow
        omega
      have hlast := (w.run ops).level_apply hlevel
      rw [run_append, run_cons, run_nil, List.count_append, List.count_append]
      omega

namespace Balanced

variable {ops : List Op}

theorem level_run (h : Balanced ops) (w : Writer) :
    (w.run ops).level = w.level := by
  have hlevel := w.level_run h.front
  rw [h.whole] at hlevel
  exact Nat.add_right_cancel hlevel

/-- Where a level is left, it is one that was entered on the way. -/
theorem level_lt {front back : List Op}
    (h : Balanced (front ++ .deindent :: back)) (w : Writer) :
    w.level < (w.run front).level := by
  have hfront : ∀ earlier, earlier <+: front →
      earlier <+: front ++ .deindent :: back :=
    fun _ hearlier => hearlier.trans (List.prefix_append _ _)
  have hlevel := w.level_run fun earlier hearlier =>
    h.front earlier (hfront earlier hearlier)
  have hleft := h.front (front ++ [.deindent]) ⟨back, by simp⟩
  rw [(count_append_deindent front).1, (count_append_deindent front).2] at hleft
  omega

end Balanced

end Writer

namespace Expr

open Writer

mutual

theorem balanced_ops (style : Style) : ∀ e : Expr, Balanced (e.ops style)
  | function name params body =>
      ((((Balanced.of_level (by simp) (by simp)).append
        (balanced_opsList style params)).append
        (.of_level (by simp) (by simp))).append
          (balanced_opsBody style body)).append
        (.of_level (by simp) (by simp))
  | returned argument =>
      (Balanced.of_level (by simp) (by simp)).append
        (balanced_ops style argument)
  | call callee arguments =>
      ((Balanced.of_level (by simp) (by simp)).append
        (balanced_opsList style arguments)).append
        (.of_level (by simp) (by simp))
  | string value => .of_level (by simp [ops]) (by simp [ops])
  | identifier name => .of_level (by simp [ops]) (by simp [ops])
  | array elements =>
      ((Balanced.of_level (by simp) (by simp)).append
        (balanced_opsList style elements)).append
        (.of_level (by simp) (by simp))

theorem balanced_opsList (style : Style) :
    ∀ es : List Expr, Balanced (opsList style es)
  | [] => .of_level (by simp [opsList]) (by simp [opsList])
  | e :: es => (balanced_ops style e).append (balanced_opsMore style es)

theorem balanced_opsMore (style : Style) :
    ∀ es : List Expr, Balanced (opsMore style es)
  | [] => .of_level (by simp [opsMore]) (by simp [opsMore])
  | e :: es =>
      ((Balanced.of_level (by simp) (by simp)).append
        (balanced_ops style e)).append (balanced_opsMore style es)

theorem balanced_opsBody (style : Style) :
    ∀ es : List Expr, Balanced (opsBody style es)
  | [] => .of_level (by simp [opsBody]) (by simp [opsBody])
  | e :: es =>
      ((balanced_ops style e).append (balanced_opsLines style es)).deeper

theorem balanced_opsLines (style : Style) :
    ∀ es : List Expr, Balanced (opsLines style es)
  | [] => .of_level (by simp [opsLines]) (by simp [opsLines])
  | e :: es =>
      ((Balanced.of_level (by simp) (by simp)).append
        (balanced_ops style e)).append (balanced_opsLines style es)

end

end Expr

/-- Writing an expression at any place appends its rendering at the level of
that place and comes back to the level.  On the way each level that is entered
is left again, and a level is left only above the one at which writing began. -/
theorem Writer.emit_composes (w : Writer) (e : Expr) :
    (∀ style level x, Expr.render style level x =
      x.layout style (Expr.render style) level) ∧
    (w.emit e).text = w.text ++ e.render w.style w.level ∧
    (w.emit e).level = w.level ∧
    w.emit e = w.run (e.ops w.style) ∧
    Balanced (e.ops w.style) ∧
    ∀ front back, e.ops w.style = front ++ .deindent :: back →
      w.level < (w.run front).level := by
  have hbalanced := e.balanced_ops w.style
  refine ⟨Expr.render_eq_layout, ?_, ?_, w.emit_eq_run e, hbalanced, ?_⟩
  · rw [emit_eq]
    rfl
  · rw [emit_eq_run, hbalanced.level_run]
  · intro front back hops
    rw [hops] at hbalanced
    exact hbalanced.level_lt w

end MarkupTemplate
