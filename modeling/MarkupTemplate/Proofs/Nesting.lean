/-
The nesting limit.  It decides nothing but which elements are left without
content, and each of them is complained of, so a reading that does not complain
of any goes on in the same way under every higher limit.
-/
import MarkupTemplate.Proofs.Reads

namespace MarkupTemplate

/-- Whether a problem is an element that the nesting limit leaves without
content. -/
def Diagnostic.isTooDeep : Diagnostic → Bool
  | nestingTooDeep .. => true
  | _ => false

/-- The limit decides nothing about what is complete in itself. -/
theorem Leaf.of_limit {whitespace : Whitespace} {limit : Nat}
    {mode : TextMode} {c : Cursor} {item : Siblings}
    (h : Leaf ⟨whitespace, limit⟩ mode c item) (other : Nat) :
    Leaf ⟨whitespace, other⟩ mode c item := by
  cases h with
  | comment hmode hopening => exact .comment hmode hopening
  | cdata hmode hopening => exact .cdata hmode hopening
  | unmatched hmode hend => exact .unmatched hmode hend
  | interpolation hmode hopening => exact .interpolation hmode hopening
  | text hmode hmarkup hinline => exact .text hmode hmarkup hinline

/-- The two readings go side by side: they open the same elements, and where the
lower limit leaves room, so does the higher one. -/
theorem Reads.of_limit_le {whitespace : Whitespace} {limit higher : Nat}
    (hle : limit ≤ higher) {mode : TextMode} {opened : List String} {c : Cursor}
    {r : Siblings} (h : Reads ⟨whitespace, limit⟩ mode opened c r)
    (hnone : ∀ d ∈ r.diagnostics, d.isTooDeep = false) :
    Reads ⟨whitespace, higher⟩ mode opened c r := by
  induction h with
  | ends hend => exact .ends hend
  | leaf hgoes hleaf _ ih =>
      simp only [Siblings.diagnostics_followedBy,
        List.forall_mem_append] at hnone
      exact .leaf hgoes (hleaf.of_limit higher) (ih hnone.2)
  | alone hgoes htag hending _ ih =>
      simp only [Siblings.diagnostics_followedBy,
        List.forall_mem_append] at hnone
      exact .alone hgoes htag hending (ih hnone.2)
  | @tooDeep _ _ tag =>
      have hdeep := hnone (.nestingTooDeep tag.name limit tag.span) (by simp)
      simp [Diagnostic.isTooDeep] at hdeep
  | element hgoes htag hending hroom _ _ ihinside ih =>
      simp only [Siblings.diagnostics_followedBy, StartTag.diagnostics_around,
        List.forall_mem_append] at hnone
      exact .element hgoes htag hending (Nat.lt_of_lt_of_le hroom hle)
        (ihinside hnone.1.1.2) (ih hnone.2)

/-- The nesting limit matters only when it is reached: if a template is read
without a complaint about it, every higher limit gives the same template, with
the same tree and the same problems. -/
theorem Template.read_of_limit_le (whitespace : Whitespace) {limit higher : Nat}
    (source : String) (hle : limit ≤ higher)
    (hnone : ∀ d ∈ (Template.read ⟨whitespace, limit⟩ source).diagnostics,
      d.isTooDeep = false) :
    Template.read ⟨whitespace, higher⟩ source =
      Template.read ⟨whitespace, limit⟩ source := by
  have hreads :=
    siblings_reads ⟨whitespace, limit⟩ .data [] (Cursor.start source.toList)
  rw [(Template.read_of_reads hreads).2] at hnone
  have hhigher := hreads.of_limit_le hle hnone
  rw [Template.read, Template.read, hhigher.eq_siblings]

/-- Two levels are enough for this source, whatever else is wrong with it; one
level is not. -/
theorem Template.read_of_limit_le_unclosed :
    let source := "<ul><li a='>x<b/></p></ul>\x7b\x7by"
    let t := Template.read ⟨.condense, 2⟩ source
    (∀ d ∈ t.diagnostics, d.isTooDeep = false) ∧ t.diagnostics.length = 4 ∧
      (Template.read ⟨.condense, 1⟩ source).diagnostics.any
        Diagnostic.isTooDeep = true ∧
      Template.read ⟨.condense, 1000⟩ source = t := by
  intro source t
  have hnone : ∀ d ∈ (Template.read ⟨.condense, 2⟩ source).diagnostics,
      d.isTooDeep = false := by
    decide +kernel
  exact ⟨hnone, by decide +kernel, by decide +kernel,
    Template.read_of_limit_le .condense source (by decide) hnone⟩

end MarkupTemplate
