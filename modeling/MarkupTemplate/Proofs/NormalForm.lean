/-
Writing out what was read without a complaint gives the same tree again.  The
tags are written anew, so a text may end up in front of other characters than
before.  It ends all the same: what is left of it can be told apart by the
delimiters alone, and these stay in their places.
-/
import MarkupTemplate.Proofs.Quiet

namespace MarkupTemplate

/-- Ends of content that look alike from the front: both are the end of the
source, or an end tag begins at both. -/
def SameEnd (s t : List Char) : Prop :=
  (s = [] ∧ t = []) ∨ (['<', '/'] <+: s ∧ ['<', '/'] <+: t)

theorem SameEnd.head_eq {s t : List Char} (h : SameEnd s t) :
    s.head? = t.head? := by
  rcases h with ⟨rfl, rfl⟩ | ⟨⟨s, rfl⟩, ⟨t, rfl⟩⟩ <;> rfl

/-- Whether a pair of characters stands in front is decided by a text that is
there and by the first character behind it. -/
theorem pair_isPrefix_congr {x y : Char} {part s t : List Char}
    (hne : part ≠ []) (hhead : s.head? = t.head?) :
    [x, y] <+: part ++ s ↔ [x, y] <+: part ++ t := by
  match part with
  | [] => exact absurd rfl hne
  | [_] =>
      cases s with
      | nil =>
          cases t with
          | nil => rfl
          | cons _ _ => simp at hhead
      | cons _ _ =>
          cases t with
          | nil => simp at hhead
          | cons _ _ =>
              simp only [List.head?_cons, Option.some.injEq] at hhead
              simp [hhead]
  | _ :: _ :: _ => simp [List.cons_prefix_cons]

theorem Siblings.endsText_congr {mode : TextMode} (hmode : mode ≠ .cdata)
    {part s t : List Char} (hne : part ≠ []) (hhead : s.head? = t.head?) :
    Siblings.endsText mode (part ++ s) =
      Siblings.endsText mode (part ++ t) := by
  have hbracket : ['<'] <+: part ++ s ↔ ['<'] <+: part ++ t := by
    cases part with
    | nil => exact absurd rfl hne
    | cons _ _ => simp [List.cons_prefix_cons]
  rw [Bool.eq_iff_iff]
  simp only [Siblings.endsText_eq hmode, Bool.or_eq_true, Bool.and_eq_true,
    List.isPrefixOf_iff_prefix, hbracket, pair_isPrefix_congr hne hhead]

/-- A marker that does not go on with a delimiter stands in front only if it
stands in the text itself. -/
theorem isPrefix_of_endsRun {mode : TextMode} (hmode : mode ≠ .cdata)
    {marker content rest : List Char}
    (hmarker : ∀ x ∈ marker.tail, x ≠ '<' ∧ x ≠ '{') (hne : content ≠ [])
    (hrest : EndsRun mode rest) (h : marker <+: content ++ rest) :
    marker <+: content := by
  rcases List.prefix_or_prefix_of_prefix h
    (List.prefix_append content rest) with
    hshort | ⟨more, rfl⟩
  · exact hshort
  · have hmore : more <+: rest := by simpa using h
    cases more with
    | nil => simp
    | cons x more =>
        -- the marker would go on with the delimiter that ends the text
        obtain ⟨behind, rfl⟩ := hmore
        have hx : x = '<' ∨ x = '{' := by
          rcases hrest with hnil | hstops
          · simp at hnil
          · simp only [Siblings.endsText_eq hmode, List.cons_append,
              Bool.or_eq_true, Bool.and_eq_true, List.isPrefixOf_iff_prefix,
              List.cons_prefix_cons] at hstops
            exact hstops.imp (fun h => h.1.symm) (fun h => h.2.1.symm)
        have hmem : x ∈ (content ++ x :: more).tail := by
          cases content with
          | nil => exact absurd rfl hne
          | cons _ _ => simp
        have hother := hmarker x hmem
        rcases hx with rfl | rfl <;> simp at hother

theorem NoMarkup.of_endsRun {content rest rest' : List Char}
    (h : NoMarkup (content ++ rest)) (hne : content ≠ [])
    (hrest : EndsRun .data rest') : NoMarkup (content ++ rest') := by
  have hback : ∀ marker : List Char, (∀ x ∈ marker.tail, x ≠ '<' ∧ x ≠ '{') →
      marker <+: content ++ rest' → marker <+: content ++ rest :=
    fun marker hmarker hbegins =>
      (isPrefix_of_endsRun (by simp) hmarker hne hrest hbegins).trans
        (List.prefix_append _ _)
  have hletter : ∀ x : Char, x.isAlpha = true → x ≠ '<' ∧ x ≠ '{' :=
    fun x hx => ⟨ne_of_isAlpha hx (by decide), ne_of_isAlpha hx (by decide)⟩
  constructor
  · exact fun hbegins => h.comment (hback _ (by simp) hbegins)
  · exact fun hbegins => h.cdata (hback _ (by simp) hbegins)
  · exact fun x hx hbegins =>
      h.endTag x hx (hback _ (by simp [hletter x hx]) hbegins)
  · exact fun x hx hbegins =>
      h.startTag x hx (hback _ (by simp [hletter x hx]) hbegins)

theorem NoMarkup.endsContent_eq_false {opened : List String} {text : List Char}
    (h : NoMarkup text) (hne : text ≠ [])
    (hopened : ∀ name ∈ opened, isTagName name.toList = true) :
    endsContent opened text = false := by
  have hnone : ∀ name ∈ opened, opensEndTag name text = false := by
    intro name hname
    by_contra hopens
    obtain ⟨spelled, rest, htext, hspelled, _⟩ :=
      opensEndTag_iff.mp (by simpa using hopens)
    have htag := isTagName_of_map_toLower hspelled (hopened name hname)
    cases spelled with
    | nil => simp [isTagName] at htag
    | cons x more =>
        simp only [isTagName, Bool.and_eq_true] at htag
        exact h.endTag x htag.1 ⟨more ++ rest, htext.symm⟩
  simp only [endsContent, Bool.or_eq_false_iff, List.any_eq_false]
  exact ⟨by simpa using hne, fun name hname => by simp [hnone name hname]⟩

/-- The name of an end tag goes no further than the next slash. -/
theorem opensEndTag_of_slash {name : String}
    (hname : isTagName name.toList = true) {part s t : List Char}
    (hslash : '/' ∈ part)
    (h : opensEndTag name ('<' :: '/' :: (part ++ s)) = true) :
    opensEndTag name ('<' :: '/' :: (part ++ t)) = true := by
  obtain ⟨spelled, rest, htext, hspelled, hends⟩ := opensEndTag_iff.mp h
  have hall := isTagName_all (isTagName_of_map_toLower hspelled hname)
  simp only [List.cons.injEq, true_and] at htext
  rw [opensEndTag_iff]
  rcases List.append_eq_append_iff.mp htext with ⟨more, rfl, _⟩ |
    ⟨more, rfl, hrest⟩
  · have hchar := hall '/' (List.mem_append_left _ hslash)
    simp [isTagNameChar] at hchar
  · refine ⟨spelled, more ++ t, by rw [List.append_assoc], hspelled, ?_⟩
    cases more with
    | nil =>
        have hchar := hall '/' (by simpa using hslash)
        simp [isTagNameChar] at hchar
    | cons x more =>
        rw [hrest] at hends
        exact hends

theorem endsContent_of_sameEnd {opened : List String} {part s t : List Char}
    (hopened : ∀ name ∈ opened, isTagName name.toList = true) (hne : part ≠ [])
    (hends : SameEnd s t) (h : endsContent opened (part ++ s) = false) :
    endsContent opened (part ++ t) = false := by
  rcases hends with ⟨rfl, rfl⟩ | ⟨⟨s, rfl⟩, ⟨t, rfl⟩⟩
  · exact h
  · simp only [endsContent, Bool.or_eq_false_iff, List.any_eq_false] at h ⊢
    refine ⟨by simp [hne], fun name hname hopens => h.2 name hname ?_⟩
    obtain ⟨spelled, rest, htext, _⟩ := opensEndTag_iff.mp hopens
    rcases part with _ | ⟨x, _ | ⟨y, part⟩⟩
    · exact absurd rfl hne
    · simp at htext
    · simp only [List.cons_append, List.cons.injEq] at htext
      obtain ⟨rfl, rfl, _⟩ := htext
      have hslash : '/' ∈ part ++ ['<', '/'] := by simp
      simpa using opensEndTag_of_slash (hopened name hname) hslash
        (by simpa using hopens)

/-- A text ends in front of a delimiter, and is the same in front of every other
delimiter that begins with the same character. -/
theorem Siblings.textRun_spec {mode : TextMode} (hmode : mode ≠ .cdata)
    {content rest : List Char} (hne : content ≠ [])
    (hrun : Siblings.textRun mode (content ++ rest) = content) :
    EndsRun mode rest ∧ ∀ rest', EndsRun mode rest' → rest.head? = rest'.head? →
      Siblings.textRun mode (content ++ rest') = content := by
  cases content with
  | nil => exact absurd rfl hne
  | cons x more =>
      simp only [List.cons_append, Siblings.textRun, List.cons.injEq,
        true_and] at hrun ⊢
      obtain ⟨hparts, hstop⟩ :=
        takeUntil_spec (Siblings.endsText mode) (more ++ rest)
      rw [hrun, List.drop_left] at hparts hstop
      refine ⟨hstop, fun rest' hrest' hhead => takeUntil_append ?_ hrest'⟩
      intro part hpart hpartNe
      rw [← Siblings.endsText_congr hmode hpartNe hhead]
      exact hparts part hpart hpartNe

namespace Quiet

variable {o : ReadOptions} {mode : TextMode} {opened : List String}
  {text tail tail' : List Char} {nodes : List Node}

/-- A text that is read is there. -/
theorem content_ne_nil {content rest : List Char}
    (hgoes : endsContent opened (content ++ rest) = false)
    (hrun : Siblings.textRun mode (content ++ rest) = content) :
    content ≠ [] := by
  rintro rfl
  cases rest with
  | nil => exact ne_nil_of_endsContent hgoes rfl
  | cons x rest => simp [Siblings.textRun] at hrun

theorem head_markups (h : Quiet o mode opened text nodes tail)
    (hends : SameEnd tail tail') :
    text.head? = (Node.markups [' '] nodes ++ tail').head? := by
  cases h with
  | ends => exact hends.head_eq
  | comment => simp [Node.markups, Node.markup]
  | interpolation => simp [Node.markups, Node.markup]
  | @text _ _ content rest _ _ _ _ hgoes _ _ hrun _ =>
      cases content with
      | nil => exact absurd rfl (content_ne_nil hgoes hrun)
      | cons x more => simp [Node.markups, Node.markup]
  | selfClosing => simp [Node.markups, Node.markup, startTagMarkup]
  | element => simp [Node.markups, Node.markup, startTagMarkup]

/-- Where a text ended before, it ends again. -/
theorem endsRun_markups (h : Quiet o mode opened text nodes tail)
    (hmode : mode ≠ .cdata) (hends : SameEnd tail tail')
    (hrun : EndsRun mode text) :
    EndsRun mode (Node.markups [' '] nodes ++ tail') := by
  have hhead := h.head_markups hends
  rcases hrun with rfl | hstops
  · exact Or.inl (List.head?_eq_none_iff.mp hhead.symm)
  · right
    cases h with
    | ends =>
        rcases hends with ⟨rfl, rfl⟩ | ⟨_, ⟨t, rfl⟩⟩
        · exact hstops
        · simp [Siblings.endsText_eq hmode, Node.markups]
    | comment => simp [Siblings.endsText_eq hmode, Node.markups, Node.markup]
    | interpolation hallows =>
        simp [Siblings.endsText_eq hmode, Node.markups, Node.markup, hallows]
    | text _ hgoes _ _ hread hlater =>
        rw [Siblings.endsText_congr hmode (content_ne_nil hgoes hread)
          (hlater.head_markups hends)] at hstops
        simpa [Node.markups, Node.markup] using hstops
    | selfClosing =>
        simp [Siblings.endsText_eq hmode, Node.markups, Node.markup,
          startTagMarkup]
    | element =>
        simp [Siblings.endsText_eq hmode, Node.markups, Node.markup,
          startTagMarkup]

/-- Where no tags are read, everything is written as it was. -/
theorem verbatim (h : Quiet o mode opened text nodes tail)
    (hmode : mode ≠ .data) (gap : List Char) :
    text = Node.markups gap nodes ++ tail := by
  induction h with
  | ends => rfl
  | comment => exact absurd rfl hmode
  | interpolation _ _ _ ih => simp [Node.markups, Node.markup, ← ih hmode]
  | text _ _ _ _ _ _ ih => simp [Node.markups, Node.markup, ← ih hmode]
  | selfClosing => exact absurd rfl hmode
  | element => exact absurd rfl hmode

theorem restores (hpreserve : o.whitespace = .preserve)
    (h : Quiet o mode opened text nodes tail)
    (hopened : ∀ name ∈ opened, isTagName name.toList = true)
    (hends : SameEnd tail tail') (hend : endsContent opened tail' = true) :
    Restores o mode opened (Node.markups [' '] nodes ++ tail') tail' nodes := by
  have hgap : ∀ x ∈ [' '], isTagSpace x = true := by simp [isTagSpace]
  induction h generalizing tail' with
  | ends => exact Restores.nil hend
  | comment hcontent _ ih =>
      rw [Node.markups, List.append_assoc]
      exact Restores.comment (by simpa using hcontent) (ih hopened hends hend)
  | interpolation hmode hexpression _ ih =>
      rw [Node.markups, List.append_assoc]
      exact Restores.interpolation hmode (by simpa using hexpression)
        (ih hopened hends hend)
  | @text mode opened content rest tail nodes span hmode hgoes
      hmarkup hinline hrun hlater ih =>
      rw [Node.markups, List.append_assoc]
      have hne := content_ne_nil hgoes hrun
      have hhead := hlater.head_markups hends
      obtain ⟨hstop, hagain⟩ := Siblings.textRun_spec hmode hne hrun
      have hrest := hlater.endsRun_markups hmode hends hstop
      have hmarkup' : mode = .data →
          NoMarkup (content ++ (Node.markups [' '] nodes ++ tail')) := by
        rintro rfl
        exact (hmarkup rfl).of_endsRun hne hrest
      have hgoes' :
          endsContent opened (content ++ (Node.markups [' '] nodes ++ tail')) =
            false := by
        by_cases hdata : mode = .data
        · exact (hmarkup' hdata).endsContent_eq_false (by simp [hne]) hopened
        -- outside data nothing but the end of the content can have been
        -- rewritten
        · rw [hlater.verbatim hdata [' '], ← List.append_assoc] at hgoes
          rw [← List.append_assoc]
          exact endsContent_of_sameEnd hopened (by simp [hne]) hends hgoes
      apply Restores.text hpreserve hmode _ _ _ _ (ih hopened hends hend)
      · simpa using hgoes'
      · simpa using hmarkup'
      · simpa [← pair_isPrefix_congr hne hhead] using hinline
      · simpa using hagain _ hrest hhead
  | selfClosing htag hreadable _ ih =>
      rw [Node.markups, List.append_assoc]
      exact Restores.selfClosing hgap htag hreadable (by simp)
        (ih hopened hends hend)
  | element htag hreadable hroom _ _ ihinside ih =>
      rw [Node.markups, List.append_assoc]
      refine Restores.element hgap htag hreadable (by simp) hroom ?_
        (ih hopened hends hend)
      apply ihinside
      · simpa [htag] using hopened
      · exact Or.inr ⟨⟨_, rfl⟩, ⟨_, rfl⟩⟩
      · simp [endsContent, opensEndTag_markup]

end Quiet

/-- A template that is read without a complaint is read as the same tree when
that tree is written out. -/
theorem Template.read_markup_read (limit : Nat) (source : String)
    (hcdata : ¬ "<![CDATA[".toList <:+: source.toList) :
    let o : ReadOptions := ⟨.preserve, limit⟩
    let t := Template.read o source
    let again := Template.read o (String.ofList (t.root.markup [' ']))
    t.diagnostics = [] →
      again.diagnostics = [] ∧ again.root.unplaced = t.root.unplaced := by
  intro o t again hclean
  have hreads := siblings_reads o .data [] (Cursor.start source.toList)
  obtain ⟨hroot, hdiagnostics⟩ := Template.read_of_reads hreads
  have hquiet := hreads.quiet rfl hcdata (hdiagnostics.symm.trans hclean)
  have hend : (siblings o .data [] (Cursor.start source.toList)).next.rest =
      [] := by
    rw [hreads.next_eq_toEnd, Cursor.toEnd_rest]
  have hrestores := hquiet.restores rfl (by simp) (Or.inl ⟨hend, rfl⟩) rfl
  obtain ⟨r, hagain, hnodes, hquiet', _⟩ := hrestores
    (Cursor.start (String.ofList (t.root.markup [' '])).toList)
    (by simp [Cursor.start, t, hroot, Node.markup])
  obtain ⟨hroot', hdiagnostics'⟩ := Template.read_of_reads hagain
  refine ⟨hdiagnostics'.trans hquiet', ?_⟩
  rw [show again.root = _ from hroot', show t.root = _ from hroot]
  simp [Node.unplaced, hnodes]

/-- Brackets and braces that open nothing, an attribute without a name, a bare
value with quotes, a stray slash and end tags that break off. -/
theorem Template.read_markup_read_lenient :
    let source :=
      "< \x7b<Div = 'q' c=d\"' / e><title></ti\x7b\x7b\x7d\x7d</TITLE </div"
    let o : ReadOptions := ⟨.preserve, 2⟩
    let t := Template.read o source
    let again := Template.read o (String.ofList (t.root.markup [' ']))
    ¬ "<![CDATA[".toList <:+: source.toList ∧ t.diagnostics = [] ∧
      again.diagnostics = [] ∧ again.root.unplaced = t.root.unplaced := by
  intro source
  have hcdata : ¬ "<![CDATA[".toList <:+: source.toList := by decide +kernel
  have hclean : (Template.read ⟨.preserve, 2⟩ source).diagnostics = [] := by
    decide +kernel
  exact ⟨hcdata, hclean, Template.read_markup_read 2 source hcdata hclean⟩

end MarkupTemplate
