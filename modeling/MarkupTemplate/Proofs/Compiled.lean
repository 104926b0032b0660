/-
What compiling a template gives.  The reader makes trees without expressions
and with no root below the top, so the code is the rendering of expressions
that are read off the tree, and strictness is the only reason to refuse.
-/
import MarkupTemplate.Compile
import MarkupTemplate.Proofs.Attachment
import MarkupTemplate.Proofs.Proper
import MarkupTemplate.Proofs.Rendering

namespace MarkupTemplate

/-- A node that carries no expression and is no root. -/
def Node.IsFresh (node : Node) : Prop :=
  node.kind ≠ .root ∧ node.expr? = none

theorem Node.IsProper.isFresh {node : Node} (h : node.IsProper) :
    node.IsFresh := by
  cases node with
  | root => exact h.elim
  | element => exact ⟨by simp [kind], h.1⟩
  | text => exact ⟨by simp [kind], h.1⟩
  | interpolation => exact ⟨by simp [kind], h⟩
  | comment => exact ⟨by simp [kind], h⟩

namespace Node

mutual

/-- The expression that a node of a template stands for: a text its literal, an
element the call of the builder on its tag and what is below it.  Comments and
interpolations stand for nothing. -/
def expression? (builder : String) : Node → Option Expr
  | text content _ _ => some (.string content)
  | element tag _ children _ _ _ =>
      some (.call builder
        (.string tag :: passedExprs (expressions builder children)))
  | _ => none

def expressions (builder : String) : List Node → List Expr
  | [] => []
  | node :: nodes =>
      (expression? builder node).toList ++ expressions builder nodes

end

mutual

theorem expr?_attached (o : RenderOptions) (depth : Nat) :
    ∀ node : Node, (∀ p ∈ node.preorder depth, p.2.IsFresh) →
      (node.attached o).expr? = node.expression? o.builder
  | root .., h => absurd rfl (h _ List.mem_cons_self).1
  | element tag attributes children selfClosing span expr, h => by
      have hbelow := filterMap_attachedAll o (depth + 1) children
        fun p hp => h p (List.mem_cons_of_mem _ hp)
      simp only [attached, expr?, expression?, hbelow]
  | text .., _ => rfl
  | interpolation .., h => (h _ List.mem_cons_self).2
  | comment .., h => (h _ List.mem_cons_self).2

/-- What the pass attaches to fresh nodes is what they stand for. -/
theorem filterMap_attachedAll (o : RenderOptions) (depth : Nat) :
    ∀ nodes : List Node, (∀ p ∈ preorders depth nodes, p.2.IsFresh) →
      (attachedAll o nodes).filterMap expr? = expressions o.builder nodes
  | [], _ => rfl
  | node :: nodes, h => by
      have hfirst := expr?_attached o depth node
        fun p hp => h p (List.mem_append.mpr (Or.inl hp))
      have hlater := filterMap_attachedAll o depth nodes
        fun p hp => h p (List.mem_append.mpr (Or.inr hp))
      rw [attachedAll, List.filterMap_cons, hfirst, hlater, expressions]
      cases expression? o.builder node <;> rfl

end

end Node

/-- The render function of a template: it returns what the top-level nodes
stand for. -/
def Template.renderFunction (t : Template) (o : RenderOptions) : Expr :=
  .function o.renderFunction []
    (renderBody o.multiRoot (Node.expressions o.builder t.root.children))

/-- The pass over a template succeeds and attaches its render function at the
top. -/
theorem Template.attachExprs_read (settings : Settings) (source : String) :
    let t := Template.read settings.reading source
    let pass := attachExprs settings.rendering t.root
    pass.verdict = .kept ∧ pass.root.expr? =
      some (t.renderFunction settings.rendering) := by
  intro t pass
  have hreads :=
    siblings_reads settings.reading .data [] (Cursor.start source.toList)
  obtain ⟨hroot, _⟩ := Template.read_of_reads hreads
  have hroot : t.root = _ := hroot
  have hkind : t.root.kind = .root := by rw [hroot]; rfl
  obtain ⟨hverdict, hattached⟩ := attachExprs_of_root settings.rendering hkind
  refine ⟨hverdict, ?_⟩
  rw [show pass.root = _ from hattached, Template.renderFunction, hroot]
  simp only [Node.attached, Node.expr?, Node.children]
  rw [Node.filterMap_attachedAll settings.rendering 1 _
    fun p hp => (hreads.isProperAt (Nat.zero_le _) p hp).proper.isFresh]

theorem Template.code_read (settings : Settings) (source : String) :
    let t := Template.read settings.reading source
    (attachExprs settings.rendering t.root).code settings.style =
      .ok ((t.renderFunction settings.rendering).render settings.style 0) := by
  intro t
  obtain ⟨hverdict, hexpr⟩ := Template.attachExprs_read settings source
  simp only [Pass.code, t, hverdict, hexpr, generate_eq_render]

/-- A template is refused exactly when it has problems and the settings are
strict, and then with its problems.  Otherwise its code is the rendering of its
render function, beside all its problems. -/
theorem compile_eq (settings : Settings) (source : String) :
    let t := Template.read settings.reading source
    let outcome := compile settings source
    (∀ d, outcome = .error (.problems d) ↔
      settings.strict = true ∧ t.diagnostics = d ∧ d ≠ []) ∧
    (¬ (settings.strict = true ∧ t.diagnostics ≠ []) ↔ outcome =
      .ok ⟨(t.renderFunction settings.rendering).render settings.style 0,
        t.diagnostics⟩) ∧
    (∀ cause, outcome ≠ .error (.rewriting cause)) ∧
    outcome ≠ .error .noRenderFunction := by
  intro t outcome
  by_cases hrefused : settings.strict = true ∧ t.diagnostics ≠ []
  · have houtcome : outcome = .error (.problems t.diagnostics) :=
      if_pos hrefused
    obtain ⟨hstrict, hproblems⟩ := hrefused
    rw [houtcome]
    refine ⟨fun d => ?_, by simp [hstrict, hproblems], by simp, by simp⟩
    simp only [Except.error.injEq, CompileError.problems.injEq]
    constructor
    · rintro rfl
      exact ⟨hstrict, rfl, hproblems⟩
    · rintro ⟨_, hd, _⟩
      exact hd
  · have houtcome : outcome =
        .ok ⟨(t.renderFunction settings.rendering).render settings.style 0,
          t.diagnostics⟩ := by
      simp only [outcome, compile, Template.code_read settings source]
      exact if_neg hrefused
    rw [houtcome]
    refine ⟨fun d => ?_, by simp [hrefused], by simp, by simp⟩
    constructor
    · simp
    · rintro ⟨hstrict, rfl, hproblems⟩
      exact absurd ⟨hstrict, hproblems⟩ hrefused

end MarkupTemplate
