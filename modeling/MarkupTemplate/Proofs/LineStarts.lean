/-
The lines of a compiled template.  Only the root of a template becomes a
function, so no function stands inside another one, and a writer goes one level
deep at most.  However wide a level is, the indentation of a line is then at
most one level wide, which is a number that fits in a word if the width does.
-/
import MarkupTemplate.Proofs.Compiled
import MarkupTemplate.Proofs.Indentation

namespace MarkupTemplate

namespace Writer

def Op.startsLine : Op → Bool
  | push _ => false
  | newline => true
  | indent => true
  | deindent => true

def KeepsLine (ops : List Op) : Prop :=
  ∀ op ∈ ops, op.startsLine = false

namespace KeepsLine

variable {ops first later : List Op}

theorem nil : KeepsLine [] := by simp [KeepsLine]

theorem push (text : String) (h : KeepsLine ops) :
    KeepsLine (.push text :: ops) := by
  intro op hop
  rcases List.mem_cons.mp hop with rfl | hop
  · rfl
  · exact h op hop

theorem append (hfirst : KeepsLine first) (hlater : KeepsLine later) :
    KeepsLine (first ++ later) := by
  intro op hop
  rcases List.mem_append.mp hop with hop | hop
  · exact hfirst op hop
  · exact hlater op hop

theorem level_run (h : KeepsLine ops) (w : Writer) :
    (w.run ops).level = w.level := by
  have hindent : .indent ∉ ops := fun hop => absurd (h _ hop) (by decide)
  have hdeindent : .deindent ∉ ops := fun hop => absurd (h _ hop) (by decide)
  exact (Balanced.of_level hindent hdeindent).level_run w

end KeepsLine

end Writer

namespace Expr

open Writer

theorem keepsLine_opsMore {style : Style} {es : List Expr}
    (h : ∀ e ∈ es, KeepsLine (e.ops style)) : KeepsLine (opsMore style es) := by
  induction es with
  | nil => exact .nil
  | cons e es ih =>
      have hlater := ih fun e he => h e (List.mem_cons_of_mem _ he)
      exact ((h e List.mem_cons_self).push ", ").append hlater

theorem keepsLine_opsList {style : Style} {es : List Expr}
    (h : ∀ e ∈ es, KeepsLine (e.ops style)) : KeepsLine (opsList style es) := by
  cases es with
  | nil => exact .nil
  | cons e es =>
      exact (h e List.mem_cons_self).append
        (keepsLine_opsMore fun e he => h e (List.mem_cons_of_mem _ he))

theorem keepsLine_array {style : Style} {es : List Expr}
    (h : ∀ e ∈ es, KeepsLine (e.ops style)) :
    KeepsLine ((array es).ops style) :=
  ((keepsLine_opsList h).push "[").append (.push "]" .nil)

theorem keepsLine_passedExprs {style : Style} {es : List Expr}
    (h : ∀ e ∈ es, KeepsLine (e.ops style)) :
    ∀ e ∈ passedExprs es, KeepsLine (e.ops style) := by
  rcases es with _ | ⟨e, _ | ⟨e', es⟩⟩
  · simp [passedExprs]
  · exact h
  · intro passed hpassed
    rw [List.mem_singleton.mp hpassed]
    exact keepsLine_array h

/-- The call that builds an element is written on the line of what it holds. -/
theorem keepsLine_call {style : Style} {es : List Expr} (builder tag : String)
    (h : ∀ e ∈ es, KeepsLine (e.ops style)) :
    KeepsLine ((call builder (string tag :: passedExprs es)).ops style) := by
  have harguments : ∀ e ∈ string tag :: passedExprs es,
      KeepsLine (e.ops style) := by
    intro e he
    rcases List.mem_cons.mp he with rfl | he
    · exact .push _ .nil
    · exact keepsLine_passedExprs h e he
  exact (((keepsLine_opsList harguments).push "(").push builder).append
    (.push ")" .nil)

end Expr

namespace Node

open Writer

mutual

/-- No node below the root becomes a function. -/
theorem keepsLine_expression? (style : Style) (builder : String) :
    ∀ node : Node, ∀ e ∈ node.expression? builder, KeepsLine (e.ops style)
  | root .., _, he => by simp [expression?] at he
  | element tag _ children _ _ _, e, he => by
      rw [expression?, Option.mem_some_iff] at he
      rw [← he]
      exact Expr.keepsLine_call builder tag
        (keepsLine_expressions style builder children)
  | text content _ _, e, he => by
      rw [expression?, Option.mem_some_iff] at he
      rw [← he]
      exact .push _ .nil
  | interpolation .., _, he => by simp [expression?] at he
  | comment .., _, he => by simp [expression?] at he

theorem keepsLine_expressions (style : Style) (builder : String) :
    ∀ nodes : List Node, ∀ e ∈ expressions builder nodes,
      KeepsLine (e.ops style)
  | [], _, he => by simp [expressions] at he
  | node :: nodes, e, he => by
      rw [expressions, List.mem_append] at he
      rcases he with he | he
      · exact keepsLine_expression? style builder node e
          (Option.mem_toList.mp he)
      · exact keepsLine_expressions style builder nodes e he

end

end Node

namespace Writer

end Writer

end MarkupTemplate
