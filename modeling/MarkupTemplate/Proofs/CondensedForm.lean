/-
The condensed form of a text.  Two texts have the same layout if they have the
same characters besides white space, and white space at the same places, however
much of it and of whichever kind.  Condensing goes through a text and remembers
only whether it stands in white space.  What comes out has the layout of the
text, and it is the one text of this layout whose white space is single spaces.
-/
import Mathlib.Data.List.SplitBy
import MarkupTemplate.Source.Text

namespace MarkupTemplate

/-- The characters of a text that are not white space, in their order. -/
def ink (text : List Char) : List Char :=
  text.filter fun c => !isBlank c

/-- White space stands in a text with the characters `front` before it and the
characters `back` behind it.  One of them is empty where the text begins or ends
with white space. -/
def BlankBetween (text front back : List Char) : Prop :=
  ∃ before c after, text = before ++ c :: after ∧ isBlank c = true ∧
    ink before = front ∧ ink after = back

/-- The same characters, with white space at the same places. -/
structure SameLayout (text other : List Char) : Prop where
  ink_eq : ink text = ink other
  blank_iff : ∀ front back,
    BlankBetween text front back ↔ BlankBetween other front back

/-- A text whose white space is single spaces, no two of them side by side. -/
structure IsCondensed (text : List Char) : Prop where
  space : ∀ c ∈ text, isBlank c = true → c = ' '
  apart : text.IsChain fun c d => ¬ (isBlank c = true ∧ isBlank d = true)

/-- Nothing but white space, with a line feed in it. -/
def IsBlankLines (text : List Char) : Prop :=
  (∀ c ∈ text, isBlank c = true) ∧ '\n' ∈ text

instance (text : List Char) : Decidable (IsBlankLines text) :=
  decidable_of_iff ((text.all isBlank && text.contains '\n') = true)
    (by simp [IsBlankLines])

/-- A text cut at every place where white space begins or ends. -/
def runs (text : List Char) : List (List Char) :=
  text.splitBy fun c d => isBlank c == isBlank d

/-- One space for a run of white space.  Every other run stays as it is. -/
def shortenRun (run : List Char) : List Char :=
  if run.all isBlank then [' '] else run

theorem isBlank_space : isBlank ' ' = true := by
  decide

theorem ink_cons (c : Char) (text : List Char) :
    ink (c :: text) = if isBlank c then ink text else c :: ink text := by
  cases hblank : isBlank c <;> simp [ink, hblank]

section BlankBetween

variable {c : Char} {text front back : List Char}

theorem not_blankBetween_nil : ¬ BlankBetween [] front back := by
  rintro ⟨before, c, after, htext, -⟩
  simp at htext

theorem blankBetween_cons_of_blank (hblank : isBlank c = true) :
    BlankBetween (c :: text) front back ↔
      (front = [] ∧ ink text = back) ∨ BlankBetween text front back := by
  constructor
  · rintro ⟨before, d, after, htext, hd, rfl, rfl⟩
    cases before with
    | nil =>
        obtain ⟨rfl, rfl⟩ := List.cons.inj htext
        exact .inl ⟨rfl, rfl⟩
    | cons b before =>
        obtain ⟨rfl, rfl⟩ := List.cons.inj htext
        refine .inr ⟨before, d, after, rfl, hd, ?_, rfl⟩
        simp [ink_cons, hblank]
  · rintro (⟨rfl, rfl⟩ | ⟨before, d, after, rfl, hd, rfl, rfl⟩)
    · exact ⟨[], c, text, rfl, hblank, rfl, rfl⟩
    · exact ⟨c :: before, d, after, rfl, hd, by simp [ink_cons, hblank], rfl⟩

theorem blankBetween_cons_of_not_blank (hblank : isBlank c = false) :
    BlankBetween (c :: text) front back ↔
      ∃ later, front = c :: later ∧ BlankBetween text later back := by
  constructor
  · rintro ⟨before, d, after, htext, hd, rfl, rfl⟩
    cases before with
    | nil =>
        obtain ⟨rfl, rfl⟩ := List.cons.inj htext
        rw [hblank] at hd
        contradiction
    | cons b before =>
        obtain ⟨rfl, rfl⟩ := List.cons.inj htext
        exact ⟨ink before, by simp [ink_cons, hblank], before, d, after,
          rfl, hd, rfl, rfl⟩
  · rintro ⟨later, rfl, before, d, after, rfl, hd, rfl, rfl⟩
    exact ⟨c :: before, d, after, rfl, hd, by simp [ink_cons, hblank], rfl⟩

theorem not_blankBetween_front (hhead : ∀ c ∈ text.head?, isBlank c = false) :
    ¬ BlankBetween text [] back := by
  cases text with
  | nil => exact not_blankBetween_nil
  | cons c text =>
      rw [blankBetween_cons_of_not_blank (hhead c rfl)]
      rintro ⟨later, hfront, -⟩
      contradiction

theorem blankBetween_front_iff (c : Char) (text : List Char) :
    BlankBetween (c :: text) [] (ink (c :: text)) ↔ isBlank c = true := by
  cases hblank : isBlank c with
  | true => simp [blankBetween_cons_of_blank hblank, ink_cons, hblank]
  | false => simp [blankBetween_cons_of_not_blank hblank]

end BlankBetween

namespace SameLayout

variable {c d : Char} {text other third : List Char}

theorem refl (text : List Char) : SameLayout text text :=
  ⟨rfl, fun _ _ => Iff.rfl⟩

theorem symm (h : SameLayout text other) : SameLayout other text :=
  ⟨h.ink_eq.symm, fun front back => (h.blank_iff front back).symm⟩

theorem trans (h : SameLayout text other) (h' : SameLayout other third) :
    SameLayout text third :=
  ⟨h.ink_eq.trans h'.ink_eq, fun front back =>
    (h.blank_iff front back).trans (h'.blank_iff front back)⟩

theorem cons (c : Char) (h : SameLayout text other) :
    SameLayout (c :: text) (c :: other) := by
  refine ⟨?_, fun front back => ?_⟩
  · rw [ink_cons, ink_cons, h.ink_eq]
  · cases hblank : isBlank c with
    | true =>
        rw [blankBetween_cons_of_blank hblank,
          blankBetween_cons_of_blank hblank, h.ink_eq, h.blank_iff]
    | false => simp only [blankBetween_cons_of_not_blank hblank, h.blank_iff]

/-- The kind of white space does not matter. -/
theorem of_blank (text : List Char) (hc : isBlank c = true)
    (hd : isBlank d = true) : SameLayout (c :: text) (d :: text) := by
  refine ⟨?_, fun front back => ?_⟩
  · simp only [ink_cons, hc, hd, if_true]
  · rw [blankBetween_cons_of_blank hc, blankBetween_cons_of_blank hd]

/-- The amount of white space does not matter. -/
theorem of_blank_blank (text : List Char) (hc : isBlank c = true)
    (hd : isBlank d = true) : SameLayout (c :: d :: text) (c :: text) := by
  refine ⟨?_, fun front back => ?_⟩
  · simp only [ink_cons, hc, hd, if_true]
  · rw [blankBetween_cons_of_blank hc, blankBetween_cons_of_blank hc,
      blankBetween_cons_of_blank hd, ink_cons, if_pos hd, ← or_assoc, or_self]

theorem isBlank_eq (h : SameLayout (c :: text) (d :: other)) :
    isBlank c = isBlank d := by
  rw [Bool.eq_iff_iff, ← blankBetween_front_iff c text,
    ← blankBetween_front_iff d other, h.blank_iff, h.ink_eq]

theorem eq_nil (h : SameLayout [] other) : other = [] := by
  cases other with
  | nil => rfl
  | cons d other =>
      cases hblank : isBlank d with
      | true =>
          have hfront :=
            (h.blank_iff _ _).mpr ((blankBetween_front_iff d other).mpr hblank)
          exact absurd hfront not_blankBetween_nil
      | false =>
          have hink := h.ink_eq
          simp [ink, hblank] at hink

theorem tail_of_not_blank (h : SameLayout (c :: text) (c :: other))
    (hblank : isBlank c = false) : SameLayout text other := by
  refine ⟨?_, fun front back => ?_⟩
  · simpa [ink_cons, hblank] using h.ink_eq
  · simpa [blankBetween_cons_of_not_blank hblank]
      using h.blank_iff (c :: front) back

/-- White space in front can be left off where no more of it follows. -/
theorem tail_of_blank (h : SameLayout (c :: text) (d :: other))
    (hblank : isBlank c = true) (htext : ∀ e ∈ text.head?, isBlank e = false)
    (hother : ∀ e ∈ other.head?, isBlank e = false) :
    SameLayout text other := by
  have hblank' : isBlank d = true := h.isBlank_eq ▸ hblank
  refine ⟨?_, fun front back => ?_⟩
  · simpa [ink_cons, hblank, hblank'] using h.ink_eq
  · cases front with
    | nil =>
        exact iff_of_false (not_blankBetween_front htext)
          (not_blankBetween_front hother)
    | cons e front =>
        simpa [blankBetween_cons_of_blank, hblank, hblank']
          using h.blank_iff (e :: front) back

end SameLayout

namespace IsCondensed

variable {c : Char} {text other : List Char}

theorem nil : IsCondensed [] :=
  ⟨by simp, .nil⟩

theorem cons (h : IsCondensed text) (hblank : isBlank c = false) :
    IsCondensed (c :: text) := by
  refine ⟨?_, h.apart.cons fun d _ => ?_⟩
  · rw [List.forall_mem_cons]
    exact ⟨by simp [hblank], h.space⟩
  · simp [hblank]

theorem space_cons (h : IsCondensed text)
    (hhead : ∀ d ∈ text.head?, isBlank d = false) :
    IsCondensed (' ' :: text) := by
  refine ⟨?_, h.apart.cons fun d hd => ?_⟩
  · rw [List.forall_mem_cons]
    exact ⟨fun _ => rfl, h.space⟩
  · simp [hhead d hd]

theorem tail (h : IsCondensed (c :: text)) : IsCondensed text :=
  ⟨fun d hd => h.space d (List.mem_cons_of_mem c hd), h.apart.tail⟩

theorem not_blank_head (h : IsCondensed (c :: text))
    (hblank : isBlank c = true) :
    ∀ d ∈ text.head?, isBlank d = false := by
  intro d hd
  have hapart := h.apart.rel_head? hd
  simpa [hblank] using hapart

/-- Condensed texts of one layout are the same. -/
theorem eq_of_sameLayout (htext : IsCondensed text) (hother : IsCondensed other)
    (h : SameLayout text other) : text = other := by
  induction text generalizing other with
  | nil => exact h.eq_nil.symm
  | cons c text ih =>
      cases other with
      | nil => exact h.symm.eq_nil
      | cons d other =>
          have hkind := h.isBlank_eq
          cases hblank : isBlank c with
          | true =>
              -- both begin with a space, and neither goes on with another
              have hblank' := hkind ▸ hblank
              have hlater :=
                h.tail_of_blank hblank (htext.not_blank_head hblank)
                (hother.not_blank_head hblank')
              rw [htext.space c List.mem_cons_self hblank,
                hother.space d List.mem_cons_self hblank',
                ih htext.tail hother.tail hlater]
          | false =>
              have hink := h.ink_eq
              simp only [ink_cons, ← hkind, hblank, Bool.false_eq_true,
                if_false] at hink
              obtain ⟨rfl, -⟩ := List.cons.inj hink
              rw [ih htext.tail hother.tail (h.tail_of_not_blank hblank)]

theorem not_isBlankLines (h : IsCondensed text) : ¬ IsBlankLines text := by
  rintro ⟨hblank, hline⟩
  have hspace := h.space '\n' hline (hblank '\n' hline)
  contradiction

end IsCondensed

section Collapsing

variable {text run rest : List Char}

theorem collapseFrom_ne_nil (htext : text ≠ []) :
    collapseFrom false text ≠ [] := by
  cases text with
  | nil => exact absurd rfl htext
  | cons c cs => by_cases hblank : isBlank c <;> simp [collapseFrom, hblank]

/-- A text that does not disappear keeps at least a space. -/
theorem condense_ne_nil {short : List Char} (htext : text ≠ [])
    (h : condense text = some short) : short ≠ [] := by
  unfold condense at h
  split at h
  · split at h
    · contradiction
    · rw [← Option.some.inj h]
      simp
  · rw [← Option.some.inj h]
    exact collapseFrom_ne_nil htext

/-- What comes out has the layout of the text.  Inside a run the space of the
run is out already, so there both are taken with this space in front. -/
theorem sameLayout_collapseFrom (text : List Char) :
    SameLayout text (collapseFrom false text) ∧
      SameLayout (' ' :: text) (' ' :: collapseFrom true text) := by
  induction text with
  | nil => exact ⟨.refl _, .refl _⟩
  | cons c text ih =>
      obtain ⟨houtside, hinside⟩ := ih
      cases hblank : isBlank c with
      | true =>
          simp only [collapseFrom, hblank, if_true,
            Bool.false_eq_true, if_false]
          exact ⟨(SameLayout.of_blank text hblank isBlank_space).trans hinside,
            (SameLayout.of_blank_blank text isBlank_space hblank).trans hinside⟩
      | false =>
          simp only [collapseFrom, hblank, Bool.false_eq_true, if_false]
          exact ⟨houtside.cons c, (houtside.cons c).cons ' '⟩

theorem isCondensed_collapseFrom (text : List Char) :
    IsCondensed (collapseFrom false text) ∧
      IsCondensed (' ' :: collapseFrom true text) := by
  induction text with
  | nil => exact ⟨.nil, IsCondensed.nil.space_cons (by simp)⟩
  | cons c text ih =>
      obtain ⟨houtside, hinside⟩ := ih
      cases hblank : isBlank c with
      | true =>
          simp only [collapseFrom, hblank, if_true,
            Bool.false_eq_true, if_false]
          exact ⟨hinside, hinside⟩
      | false =>
          simp only [collapseFrom, hblank, Bool.false_eq_true, if_false]
          exact ⟨houtside.cons hblank,
            (houtside.cons hblank).space_cons (by simp [hblank])⟩

/-- Texts collapse to the same if and only if they have the same layout. -/
theorem collapseFrom_eq_iff {other : List Char} :
    collapseFrom false text = collapseFrom false other ↔
      SameLayout text other := by
  have htext := (sameLayout_collapseFrom text).1
  have hother := (sameLayout_collapseFrom other).1
  constructor
  · intro h
    rw [← h] at hother
    exact htext.trans hother.symm
  · intro h
    exact (isCondensed_collapseFrom text).1.eq_of_sameLayout
      (isCondensed_collapseFrom other).1 (htext.symm.trans (h.trans hother))

theorem collapseFrom_gap (hgap : ∀ c ∈ run, isBlank c = true) :
    collapseFrom true (run ++ rest) = collapseFrom true rest := by
  induction run with
  | nil => rfl
  | cons c run ih =>
      rw [List.forall_mem_cons] at hgap
      simp [collapseFrom, hgap.1, ih hgap.2]

theorem collapseFrom_word (hword : ∀ c ∈ run, isBlank c = false) :
    collapseFrom false (run ++ rest) = run ++ collapseFrom false rest := by
  induction run with
  | nil => rfl
  | cons c run ih =>
      rw [List.forall_mem_cons] at hword
      simp [collapseFrom, hword.1, ih hword.2]

theorem collapseFrom_true_eq (hrest : ∀ c ∈ rest.head?, isBlank c = false) :
    collapseFrom true rest = collapseFrom false rest := by
  cases rest with
  | nil => rfl
  | cons c rest => simp [collapseFrom, hrest c rfl]

/-- A run that goes as far as it can is shortened on its own. -/
theorem collapseFrom_run {blank : Bool} (hne : run ≠ [])
    (hrun : ∀ c ∈ run, isBlank c = blank)
    (hrest : ∀ c ∈ rest.head?, isBlank c = !blank) :
    collapseFrom false (run ++ rest) =
      shortenRun run ++ collapseFrom false rest := by
  obtain ⟨c, more, rfl⟩ := List.exists_cons_of_ne_nil hne
  cases blank with
  | true =>
      have hshort : shortenRun (c :: more) = [' '] :=
        if_pos (List.all_eq_true.mpr hrun)
      rw [List.forall_mem_cons] at hrun
      rw [hshort, ← collapseFrom_true_eq hrest, ← collapseFrom_gap hrun.2]
      simp [collapseFrom, hrun.1]
  | false =>
      have hshort : shortenRun (c :: more) = c :: more :=
        if_neg (by simp [hrun c List.mem_cons_self])
      rw [hshort, collapseFrom_word hrun]

theorem isBlank_eq_of_mem_run {c d : Char}
    (hrun : run.IsChain fun c d => (isBlank c == isBlank d) = true)
    (hc : c ∈ run) (hd : d ∈ run) : isBlank c = isBlank d := by
  have hkinds : (run.map isBlank).IsChain (· = ·) :=
    (List.isChain_map isBlank).mpr (hrun.imp fun _ _ => eq_of_beq)
  have hpairs := List.isChain_iff_pairwise.mp hkinds
  exact hpairs.forall_of_forall (fun _ _ => rfl) (List.mem_map_of_mem hc)
    (List.mem_map_of_mem hd)

/-- Going through the characters one by one shortens every run. -/
theorem collapseFrom_eq_runs (text : List Char) :
    collapseFrom false text = (runs text).flatMap shortenRun := by
  obtain ⟨htext, hne, hsame, hdiffer⟩ :=
    List.splitBy_eq_iff.mp (Eq.refl (runs text))
  generalize runs text = parts at htext hne hsame hdiffer ⊢
  subst htext
  induction parts with
  | nil => rfl
  | cons run parts ih =>
      rw [List.mem_cons, not_or] at hne
      rw [List.forall_mem_cons] at hsame
      rw [List.isChain_cons] at hdiffer
      have hrun : run ≠ [] := Ne.symm hne.1
      rw [List.flatten_cons, List.flatMap_cons, ← ih hne.2 hsame.2 hdiffer.2]
      -- the last character of a run tells its kind, and the next one is of the
      -- other kind
      refine collapseFrom_run hrun (fun c hc =>
        isBlank_eq_of_mem_run hsame.1 hc (List.getLast_mem hrun)) fun d hd => ?_
      cases parts with
      | nil => simp at hd
      | cons next parts =>
          obtain ⟨_, hnext, hends⟩ := hdiffer.1 next rfl
          obtain ⟨e, more, rfl⟩ := List.exists_cons_of_ne_nil hnext
          obtain rfl : e = d := by simpa using hd
          have hother : isBlank (run.getLast hrun) ≠ isBlank e := by
            simpa using hends
          exact Bool.eq_not.mpr hother.symm

/-- White space alone is no exception but for its line feeds. -/
theorem condense_eq (htext : text ≠ []) :
    condense text = if IsBlankLines text then none
    else some (collapseFrom false text) := by
  unfold condense
  split
  · next hall =>
      have hblank := List.all_eq_true.mp hall
      have hshort : collapseFrom false text = [' '] := by
        have hrun : collapseFrom false (text ++ []) =
            shortenRun text ++ collapseFrom false [] :=
          collapseFrom_run htext hblank (by simp)
        simpa [shortenRun, hall, collapseFrom] using hrun
      have hlines : text.contains '\n' = true ↔ IsBlankLines text := by
        simpa [IsBlankLines] using fun _ => hblank
      rw [hshort]
      exact if_congr hlines rfl rfl
  · next hall =>
      rw [if_neg]
      rintro ⟨hblank, -⟩
      exact hall (List.all_eq_true.mpr hblank)

/-- Condensing leaves a condensed text as it is. -/
theorem IsCondensed.condense_eq_some (h : IsCondensed text)
    (htext : text ≠ []) : condense text = some text := by
  have hsame := (isCondensed_collapseFrom text).1.eq_of_sameLayout h
    (sameLayout_collapseFrom text).1.symm
  rw [condense_eq htext, if_neg h.not_isBlankLines, hsame]

end Collapsing

/-- The condensed form is canonical.  A text disappears if it is white space
with a line feed and nothing else.  Of any other text every longest run of white
space becomes one space: the form is condensed, it has the layout of the text,
and condensing leaves it as it is.  Texts that do not disappear have the same
form if and only if they have the same layout. -/
theorem condense_isCanonical {text : List Char} (htext : text ≠ []) :
    (condense text = none ↔ IsBlankLines text) ∧
      (¬ IsBlankLines text → ∃ short, condense text = some short ∧
        short = (runs text).flatMap shortenRun ∧ short ≠ [] ∧
        SameLayout text short ∧
        IsCondensed short ∧ condense short = some short ∧
        ∀ other, other ≠ [] → ¬ IsBlankLines other →
          (condense other = some short ↔ SameLayout text other)) := by
  have hcondense := condense_eq htext
  refine ⟨by simp [hcondense], fun hkept => ?_⟩
  rw [if_neg hkept] at hcondense
  have hlayout := (sameLayout_collapseFrom text).1
  have hcondensed := (isCondensed_collapseFrom text).1
  have hne := condense_ne_nil htext hcondense
  refine ⟨_, hcondense, collapseFrom_eq_runs text, hne, hlayout, hcondensed,
    hcondensed.condense_eq_some hne, fun other hother hkept' => ?_⟩
  rw [condense_eq hother, if_neg hkept', Option.some_inj, eq_comm,
    collapseFrom_eq_iff]

/-- Six kinds of white space, at both ends and around a line feed.  Another text
of this layout has the same form, and white space alone disappears. -/
theorem condense_isCanonical_wide :
    let text := "\u3000a\t\n b\u00a0\u2028".toList
    let other := " a\u2003b\n".toList
    let lines := "\u0085\n".toList
    text ≠ [] ∧ ¬ IsBlankLines text ∧ condense text = some " a b ".toList ∧
      SameLayout text " a b ".toList ∧ IsCondensed " a b ".toList ∧
      other ≠ [] ∧ ¬ IsBlankLines other ∧ SameLayout text other ∧
      lines ≠ [] ∧ IsBlankLines lines ∧ condense lines = none := by
  intro text other lines
  have htext : text ≠ [] := by decide
  have hkept : ¬ IsBlankLines text := by decide
  have hother : other ≠ [] := by decide
  have hkept' : ¬ IsBlankLines other := by decide
  have hlines : lines ≠ [] := by decide
  have hblank : IsBlankLines lines := by decide
  obtain ⟨short, hshort, -, -, hlayout, hcondensed, -, hforms⟩ :=
    (condense_isCanonical htext).2 hkept
  obtain rfl : short = " a b ".toList :=
    Option.some.inj (hshort.symm.trans (by decide))
  exact ⟨htext, hkept, hshort, hlayout, hcondensed, hother, hkept',
    (hforms other hother hkept').mp (by decide), hlines, hblank,
    (condense_isCanonical hlines).1.mpr hblank⟩

end MarkupTemplate
