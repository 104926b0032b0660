/-
The names of tags.  Start tags and end tags are found by a letter behind the
opening bracket, and the test for the end tag of an open element finds exactly
the end tags of that name.
-/
import MarkupTemplate.Proofs.Passage

namespace MarkupTemplate

theorem ne_of_isAlpha {c d : Char} (hc : c.isAlpha = true)
    (hd : d.isAlpha = false) : c ≠ d := by
  rintro rfl
  simp [hd] at hc

theorem isTagNameChar_of_isAlpha {c : Char} (h : c.isAlpha = true) :
    isTagNameChar c = true := by
  have hne : ∀ d : Char, d.isAlpha = false → c ≠ d := fun d => ne_of_isAlpha h
  simp only [isTagNameChar, isTagSpace, Bool.and_eq_true, Bool.not_eq_true',
    Bool.or_eq_false_iff, beq_eq_false_iff_ne, bne_iff_ne]
  exact ⟨⟨⟨⟨⟨⟨hne _ (by decide), hne _ (by decide)⟩, hne _ (by decide)⟩,
    hne _ (by decide)⟩, hne _ (by decide)⟩, hne _ (by decide)⟩,
    hne _ (by decide)⟩

theorem isTagName_all {name : List Char} (h : isTagName name = true) :
    ∀ c ∈ name, isTagNameChar c = true := by
  cases name with
  | nil => simp
  | cons c cs =>
      simp only [isTagName, Bool.and_eq_true, List.all_eq_true] at h
      intro d hd
      rcases List.mem_cons.mp hd with rfl | hd
      · exact isTagNameChar_of_isAlpha h.1
      · exact h.2 d hd

theorem takeWhile_name {name rest : List Char}
    (hname : ∀ c ∈ name, isTagNameChar c = true)
    (hrest : endsName rest = true) :
    (name ++ rest).takeWhile isTagNameChar = name := by
  apply takeWhile_run hname
  intro c hc
  cases rest with
  | nil => simp at hc
  | cons d ds =>
      simp only [List.head?_cons, Option.mem_some_iff] at hc
      simpa [endsName, hc] using hrest

/-- An end tag at the front of a text has a letter behind `</`, and its name
goes as far as a name can. -/
theorem TagToken.first?_eq_endOpen {cs taken : List Char} {name : String}
    (h : TagToken.first? cs = some (.endOpen name, taken)) :
    ∃ spelled rest, cs = '<' :: '/' :: (spelled ++ rest) ∧
      isTagName spelled = true ∧
      endsName rest = true ∧ name = String.ofList spelled ∧
      taken = '<' :: '/' :: spelled := by
  cases TagToken.begins h with
  | endOpen hname hends => exact ⟨_, _, rfl, hname, hends, rfl, rfl⟩

theorem TagToken.first?_eq_startOpen {cs taken : List Char} {name : String}
    (h : TagToken.first? cs = some (.startOpen name, taken)) :
    ∃ spelled rest, cs = '<' :: (spelled ++ rest) ∧ isTagName spelled = true ∧
      endsName rest = true ∧ name = String.ofList spelled ∧
      taken = '<' :: spelled := by
  cases TagToken.begins h with
  | startOpen hname hends => exact ⟨_, _, rfl, hname, hends, rfl, rfl⟩

theorem TagToken.first?_endTag {name rest : List Char}
    (hname : isTagName name = true) (hrest : endsName rest = true) :
    TagToken.first? ('<' :: '/' :: (name ++ rest)) =
      some (.endOpen (String.ofList name), '<' :: '/' :: name) := by
  cases name with
  | nil => simp [isTagName] at hname
  | cons c cs =>
      simp only [isTagName, Bool.and_eq_true, List.all_eq_true] at hname
      simp [TagToken.first?, hname.1, takeWhile_name hname.2 hrest]

theorem TagToken.first?_startTag {name rest : List Char}
    (hname : isTagName name = true) (hrest : endsName rest = true) :
    TagToken.first? ('<' :: (name ++ rest)) =
      some (.startOpen (String.ofList name), '<' :: name) := by
  cases name with
  | nil => simp [isTagName] at hname
  | cons c cs =>
      simp only [isTagName, Bool.and_eq_true, List.all_eq_true] at hname
      have hslash : c ≠ '/' := by
        rintro rfl
        exact absurd hname.1 (by decide)
      simp [TagToken.first?, hname.1, hslash, takeWhile_name hname.2 hrest]

theorem endTag?_eq_some {c next : Cursor} {name : String}
    (h : endTag? c = some (name, next)) :
    ∃ spelled rest, c.rest = '<' :: '/' :: (spelled ++ rest) ∧
      isTagName spelled = true ∧
      endsName rest = true ∧ name = String.ofList spelled ∧
      next = endTagRest (c.advance ('<' :: '/' :: spelled)) := by
  unfold endTag? at h
  split at h
  · next name taken hread =>
      obtain ⟨spelled, rest, hrest, hname, hends, rfl, rfl⟩ :=
        TagToken.first?_eq_endOpen hread
      simp only [Option.some.injEq, Prod.mk.injEq] at h
      exact ⟨spelled, rest, hrest, hname, hends, h.1.symm, h.2.symm⟩
  · contradiction

theorem endTag?_of_name {c : Cursor} {name rest : List Char}
    (hname : isTagName name = true) (hends : endsName rest = true)
    (hrest : c.rest = '<' :: '/' :: (name ++ rest)) :
    endTag? c =
      some (String.ofList name,
        endTagRest (c.advance ('<' :: '/' :: name))) := by
  rw [endTag?, hrest, TagToken.first?_endTag hname hends]

theorem endTag?_eq_none_iff (c : Cursor) :
    endTag? c = none ↔ ∀ x, x.isAlpha = true → ¬ ['<', '/', x] <+: c.rest := by
  constructor
  · rintro hnone x hx ⟨more, hrest⟩
    rw [endTag?_of_name (isTagName_cons_takeWhile more hx)
      (endsName_drop_takeWhile more)
      (by simp [← hrest, takeWhile_append_drop])] at hnone
    simp at hnone
  · intro halpha
    cases hread : endTag? c with
    | none => rfl
    | some found =>
        obtain ⟨spelled, rest, hrest, hname, _⟩ := endTag?_eq_some hread
        cases spelled with
        | nil => simp [isTagName] at hname
        | cons x more =>
            simp only [isTagName, Bool.and_eq_true] at hname
            exact absurd ⟨more ++ rest, hrest.symm⟩ (halpha x hname.1)

theorem StartTag.read?_eq_some {c : Cursor} {tag : StartTag}
    (h : StartTag.read? c = some tag) :
    ∃ spelled rest, c.rest = '<' :: (spelled ++ rest) ∧
      isTagName spelled = true ∧
      endsName rest = true ∧ tag.name = String.ofList spelled ∧
      let r := TagRest.read none (c.advance ('<' :: spelled))
      tag.attributes = r.attributes ∧ tag.ending = r.ending ∧
        tag.next = r.next ∧
        tag.span = c.spanTo r.next ∧
        tag.problems = r.problems ++
          if r.ending = .cut ∧ r.problems = [] then
            [Diagnostic.unterminatedStartTag tag.name tag.span] else [] := by
  unfold StartTag.read? at h
  split at h
  · next name taken hread =>
      obtain ⟨spelled, rest, hrest, hname, hends, rfl, rfl⟩ :=
        TagToken.first?_eq_startOpen hread
      refine ⟨spelled, rest, hrest, hname, hends, ?_⟩
      rw [← Option.some.inj h]
      simp
  · contradiction

theorem StartTag.isTagName_name {c : Cursor} {tag : StartTag}
    (h : StartTag.read? c = some tag) : isTagName tag.name.toList = true := by
  obtain ⟨spelled, _, _, hname, _, htag, _⟩ := StartTag.read?_eq_some h
  simpa [htag] using hname

theorem StartTag.exists_letter {c : Cursor} {tag : StartTag}
    (h : StartTag.read? c = some tag) :
    ∃ x more, c.rest = '<' :: x :: more ∧ x.isAlpha = true := by
  obtain ⟨spelled, rest, hrest, hname, _⟩ := StartTag.read?_eq_some h
  cases spelled with
  | nil => simp [isTagName] at hname
  | cons x more =>
      simp only [isTagName, Bool.and_eq_true] at hname
      exact ⟨x, more ++ rest, hrest, hname.1⟩

theorem StartTag.read?_eq_none_iff (c : Cursor) :
    StartTag.read? c = none ↔ ∀ x, x.isAlpha = true →
      ¬ ['<', x] <+: c.rest := by
  constructor
  · rintro hnone x hx ⟨more, hrest⟩
    have hread := TagToken.first?_startTag (isTagName_cons_takeWhile more hx)
      (endsName_drop_takeWhile more)
    rw [List.cons_append, takeWhile_append_drop,
      show '<' :: x :: more = c.rest from hrest] at hread
    simp [StartTag.read?, hread] at hnone
  · intro halpha
    cases hread : StartTag.read? c with
    | none => rfl
    | some tag =>
        obtain ⟨x, more, hrest, hx⟩ := StartTag.exists_letter hread
        exact absurd ⟨more, hrest.symm⟩ (halpha x hx)

theorem afterName?_eq_some_iff {name text rest : List Char} :
    afterName? name text = some rest ↔
      ∃ spelled, text = spelled ++ rest ∧
        spelled.map Char.toLower = name.map Char.toLower := by
  induction name generalizing text with
  | nil => simp [afterName?]
  | cons n ns ih =>
      cases text with
      | nil => simp [afterName?]
      | cons c cs =>
          simp only [afterName?]
          split
          · next hsame =>
              rw [ih]
              constructor
              · rintro ⟨spelled, rfl, hspelled⟩
                exact ⟨c :: spelled, rfl, by simp [hspelled, hsame]⟩
              · rintro ⟨spelled, htext, hspelled⟩
                cases spelled with
                | nil => simp at hspelled
                | cons d spelled =>
                    simp only [List.cons_append, List.cons.injEq] at htext
                    simp only [List.map_cons, List.cons.injEq] at hspelled
                    exact ⟨spelled, htext.2, hspelled.2⟩
          · next hother =>
              simp only [reduceCtorEq, false_iff]
              rintro ⟨spelled, htext, hspelled⟩
              cases spelled with
              | nil => simp at hspelled
              | cons d spelled =>
                  simp only [List.cons_append, List.cons.injEq] at htext
                  simp only [List.map_cons, List.cons.injEq] at hspelled
                  exact hother (by rw [← hspelled.1, htext.1])

/-- The end tag of an element may spell its name with other letter cases, but
the name must end where the element's name ends. -/
theorem opensEndTag_iff {name : String} {cs : List Char} :
    opensEndTag name cs = true ↔
      ∃ spelled rest, cs = '<' :: '/' :: (spelled ++ rest) ∧
        spelled.map Char.toLower = foldCase name ∧ endsName rest = true := by
  unfold opensEndTag
  split
  · next cs =>
      constructor
      · intro h
        split at h
        · contradiction
        · next hafter =>
            obtain ⟨spelled, rfl, hspelled⟩ := afterName?_eq_some_iff.mp hafter
            exact ⟨spelled, [], rfl, hspelled, rfl⟩
        · next c rest hafter =>
            obtain ⟨spelled, rfl, hspelled⟩ := afterName?_eq_some_iff.mp hafter
            exact ⟨spelled, c :: rest, rfl, hspelled, h⟩
      · rintro ⟨spelled, rest, hcs, hspelled, hends⟩
        simp only [List.cons.injEq, true_and] at hcs
        have hafter := afterName?_eq_some_iff.mpr ⟨spelled, hcs, hspelled⟩
        rw [hafter]
        cases rest with
        | nil => rfl
        | cons c rest => exact hends
  · next hother =>
      simp only [Bool.false_eq_true, false_iff]
      rintro ⟨spelled, rest, hcs, _⟩
      exact hother _ hcs

theorem isTagNameChar_toLower (c : Char) :
    isTagNameChar c.toLower = isTagNameChar c := by
  by_cases hupper : c.isUpper = true
  · have halpha : c.isAlpha = true := by simp [Char.isAlpha, hupper]
    rw [isTagNameChar_of_isAlpha halpha,
      isTagNameChar_of_isAlpha (by simpa using halpha)]
  · rw [Char.toLower_eq_of_not_isUpper hupper]

theorem isTagName_of_map_toLower {name spelled : List Char}
    (hsame : spelled.map Char.toLower = name.map Char.toLower)
    (hname : isTagName name = true) : isTagName spelled = true := by
  have hfold : ∀ cs : List Char,
      isTagName (cs.map Char.toLower) = isTagName cs := by
    intro cs
    cases cs with
    | nil => rfl
    | cons c cs =>
        simp [isTagName, List.all_map, Function.comp_def, isTagNameChar_toLower]
  rw [← hfold, hsame, hfold, hname]

/-- Where the end tag of an open element begins, an end tag of that name is
read. -/
theorem endTag?_of_opensEndTag {name : String} {c : Cursor}
    (hname : isTagName name.toList = true)
    (h : opensEndTag name c.rest = true) :
    ∃ spelled next, endTag? c = some (spelled, next) ∧
      foldCase spelled = foldCase name := by
  obtain ⟨spelled, rest, hrest, hspelled, hends⟩ := opensEndTag_iff.mp h
  have htag := isTagName_of_map_toLower hspelled hname
  exact ⟨_, _, endTag?_of_name htag hends hrest,
    by simpa [foldCase] using hspelled⟩

/-- An end tag that is read is one of an open element as soon as the names
agree but for the case of letters. -/
theorem opensEndTag_iff_of_endTag? {name spelled : String} {c next : Cursor}
    (hname : isTagName name.toList = true)
    (h : endTag? c = some (spelled, next)) :
    opensEndTag name c.rest = true ↔ foldCase name = foldCase spelled := by
  obtain ⟨chars, rest, hrest, hchars, hends, rfl, _⟩ := endTag?_eq_some h
  rw [opensEndTag_iff]
  constructor
  · rintro ⟨others, rest', hrest', hothers, hends'⟩
    -- both spellings are the longest name behind the bracket
    have hsame : chars ++ rest = others ++ rest' := by
      simpa [hrest] using hrest'
    have hall := isTagName_all (isTagName_of_map_toLower hothers hname)
    have htaken := takeWhile_name (isTagName_all hchars) hends
    rw [hsame, takeWhile_name hall hends'] at htaken
    simpa [foldCase, htaken] using hothers.symm
  · intro hfold
    exact ⟨chars, rest, hrest, by simpa [foldCase] using hfold.symm, hends⟩

end MarkupTemplate
