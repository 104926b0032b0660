/-
How start tags end.  A start tag that does not break off ends with a bracket.
One problem at most is found in it: a quote that is never closed, or that it
breaks off without any such quote.
-/
import MarkupTemplate.Proofs.Placement

namespace MarkupTemplate

/-- A quote that is never closed stands in front. -/
def OpensQuote (cs : List Char) : Prop :=
  ∃ quote more, cs = quote :: more ∧ (quote = '"' ∨ quote = '\'') ∧ quote ∉ more

/-- A quote that is never closed stands at the cursor `q` and was reported. -/
structure TagRest.QuoteAt (c : Cursor) (r : TagRest) (name : String)
    (q : Cursor) : Prop where
  problems : r.problems = [.missingAttributeQuote name (q.spanTo q.toEnd)]
  leads : c.Leads q
  opens : OpensQuote q.rest
  inside : q.offset < r.next.offset
  cut : r.ending = .cut → '>' ∉ q.rest ∧ r.next = q.toEnd

/-- How the rest of a start tag ends, as read from a cursor. -/
structure TagRest.Ends (c : Cursor) (r : TagRest) : Prop where
  bracket : r.ending ≠ .cut →
    ∃ d, c.Leads d ∧ d.rest = '>' :: r.next.rest ∧ r.next.offset = d.offset + 1
  quote : r.problems ≠ [] → ∃ name q, r.QuoteAt c name q

namespace TagRest.Ends

variable {c d : Cursor} {r : TagRest}

theorem of_leads (h : r.Ends d) (hc : c.Leads d) : r.Ends c := by
  constructor
  · intro hending
    obtain ⟨e, he, hbracket⟩ := h.bracket hending
    exact ⟨e, hc.trans he, hbracket⟩
  · intro hproblems
    obtain ⟨name, q, hq⟩ := h.quote hproblems
    exact ⟨name, q, hq.problems, hc.trans hq.leads, hq.opens, hq.inside, hq.cut⟩

theorem after (h : r.Ends c) (attributes : List Attribute) :
    (r.after attributes).Ends c := by
  refine ⟨h.bracket, fun hproblems => ?_⟩
  obtain ⟨name, q, hq⟩ := h.quote hproblems
  exact ⟨name, q, hq.problems, hq.leads, hq.opens, hq.inside, hq.cut⟩

/-- A tag that breaks off without a problem. -/
theorem of_cut (hending : r.ending = .cut)
    (hproblems : r.problems = []) : r.Ends c :=
  ⟨fun h => absurd hending h, fun h => absurd hproblems h⟩

/-- A tag that ends with a token whose last character is the bracket. -/
theorem of_token {before taken : List Char} (hd : c.Leads d)
    (htaken : taken <+: d.rest) (hbracket : taken = before ++ ['>'])
    (hnext : r.next = d.advance taken) (hproblems : r.problems = []) :
    r.Ends c := by
  refine ⟨fun _ => ?_, fun h => absurd hproblems h⟩
  subst hbracket
  obtain ⟨more, hmore⟩ := htaken
  have hrest : d.rest = before ++ '>' :: more := by simp [← hmore]
  refine ⟨d.advance before,
    hd.trans (Cursor.leads_advance ⟨_, hrest.symm⟩), ?_, ?_⟩
  · simp [hnext, hrest]
  · simp only [hnext, Cursor.advance_offset, byteLength_append, ← Nat.add_assoc]
    rfl

end TagRest.Ends

/-- Behind a quote that is never closed the tag ends with the next bracket, or
with the source. -/
theorem TagRest.afterOpenQuote_ends (name : Lexeme String) {q : Cursor}
    {quote : Char} {more : List Char} (hrest : q.rest = quote :: more)
    (hquote : quote = '"' ∨ quote = '\'') (hmore : quote ∉ more) :
    let behind := q.advance [quote]
    (TagRest.afterOpenQuote name (q.spanTo behind) behind).Ends q := by
  intro behind
  have hbehind : q.Leads behind := Cursor.leads_advance ⟨more, by simp [hrest]⟩
  have hopens : OpensQuote q.rest := ⟨quote, more, hrest, hquote, hmore⟩
  have hspan : (⟨(q.spanTo behind).start, behind.toEnd.offset⟩ : Span) =
      q.spanTo q.toEnd := by
    rw [hbehind.end_eq]
    rfl
  let here := behind.advance (behind.rest.takeWhile (· != '>'))
  have hhere : q.Leads here :=
    hbehind.trans (Cursor.leads_advance (List.takeWhile_prefix _))
  have hpast : q.offset < here.offset := by
    have hwidth : 0 < byteLength [quote] := byteLength_pos (by simp)
    simp only [here, behind, Cursor.advance_offset]
    omega
  simp only [TagRest.afterOpenQuote, hspan]
  rcases drop_takeWhile_ne '>' behind.rest with hnil | ⟨later, hlater⟩
  · have hempty : here.rest = [] := hnil
    rw [if_pos (List.isEmpty_iff.mpr hempty)]
    have hnone : '>' ∉ q.rest := by
      have hwhole := takeWhile_append_drop (· != '>') behind.rest
      rw [hnil, List.append_nil] at hwhole
      have hbracket : '>' ∉ behind.rest.takeWhile (· != '>') := fun hmem => by
        simpa using List.mem_takeWhile_imp hmem
      rw [hwhole, show behind.rest = more by simp [behind, hrest]] at hbracket
      rcases hquote with rfl | rfl <;> simpa [hrest] using hbracket
    refine ⟨fun h => absurd rfl h, fun _ =>
      ⟨name.token, q, rfl, .refl q, hopens, hpast, ?_⟩⟩
    exact fun _ => ⟨hnone, hhere.eq_toEnd hempty⟩
  · have hbracket : here.rest = '>' :: later := hlater
    have hmore : ¬ here.rest.isEmpty = true := by simp [hbracket]
    rw [if_neg hmore]
    have hnext : here.Leads (here.advance ['>']) :=
      Cursor.leads_advance ⟨later, by simp [hbracket]⟩
    have hahead : ∀ d : Cursor, d.rest = '>' :: later →
        d.rest = '>' :: (d.advance ['>']).rest := by
      intro d hd
      simp [hd]
    constructor
    · exact fun _ => ⟨here, hhere, hahead here hbracket, rfl⟩
    · intro _
      refine ⟨name.token, q, rfl, .refl q, hopens,
        Nat.lt_of_lt_of_le hpast hnext.offset_le, ?_⟩
      intro hcut
      simp only at hcut
      split at hcut <;> contradiction

theorem TagRest.read_ends (pending : Option (Lexeme String)) (c : Cursor) :
    (TagRest.read pending c).Ends c := by
  fun_induction TagRest.read pending c with
  | case1 => exact .of_cut rfl rfl
  | case2 _ _ _ _ _ _ h ih =>
      exact (ih.of_leads (Cursor.tagToken?_leads h)).after _
  | case3 => exact .of_cut rfl rfl
  | case4 _ _ _ _ h _ _ _ _ hv ih =>
      have hleads := (Cursor.tagToken?_leads h).trans
        (Cursor.valueToken?_leads hv)
      exact (ih.of_leads hleads).after _
  | case5 _ _ _ _ h _ _ _ _ hv ih =>
      have hleads := (Cursor.tagToken?_leads h).trans
        (Cursor.valueToken?_leads hv)
      exact (ih.of_leads hleads).after _
  | case6 _ _ _ next h name quote behind hv =>
      obtain ⟨taken, hread, rfl, hspan⟩ := Cursor.lexeme?_eq_some hv
      rw [show quote = _ from hspan]
      have hleads := (Cursor.tagToken?_leads h).trans next.leads_skipSpace
      generalize next.skipSpace = q at *
      generalize hcs : q.rest = cs at hread
      cases ValueToken.begins hread with
      | unterminated hquote hmore =>
          exact (TagRest.afterOpenQuote_ends name hcs hquote hmore).of_leads
            hleads
  | case7 _ _ _ next h _ _ _ hv =>
      obtain ⟨taken, hread, rfl, _⟩ := Cursor.lexeme?_eq_some hv
      have hleads := (Cursor.tagToken?_leads h).trans next.leads_skipSpace
      have htaken : taken = [] ++ ['>'] := by
        generalize next.skipSpace.rest = cs at hread
        cases ValueToken.begins hread
        rfl
      exact .of_token hleads (ValueToken.first?_isPrefix hread) htaken rfl rfl
  | case8 _ c _ _ _ h =>
      obtain ⟨taken, hread, rfl, _⟩ := Cursor.lexeme?_eq_some h
      have htaken : taken = [] ++ ['>'] := by
        generalize c.skipSpace.rest = cs at hread
        cases TagToken.begins hread
        rfl
      exact .of_token c.leads_skipSpace
        (TagToken.first?_isPrefix hread) htaken rfl rfl
  | case9 _ c _ _ _ h =>
      obtain ⟨taken, hread, rfl, _⟩ := Cursor.lexeme?_eq_some h
      have htaken : taken = ['/'] ++ ['>'] := by
        generalize c.skipSpace.rest = cs at hread
        cases TagToken.begins hread
        rfl
      exact .of_token c.leads_skipSpace
        (TagToken.first?_isPrefix hread) htaken rfl rfl
  | case10 => exact .of_cut rfl rfl
  | case11 => exact .of_cut rfl rfl
  | case12 _ _ _ _ h ih => exact ih.of_leads (Cursor.tagToken?_leads h)

namespace StartTag

variable {c : Cursor} {tag : StartTag}

/-- A start tag that does not break off ends with a bracket. -/
theorem exists_bracket (h : StartTag.read? c = some tag)
    (hending : tag.ending ≠ .cut) :
    ∃ d, c.Leads d ∧ d.rest = '>' :: tag.next.rest ∧
      tag.next.offset = d.offset + 1 := by
  obtain ⟨spelled, rest, hrest, _, _, _, _, hends, hnext, _⟩ :=
    StartTag.read?_eq_some h
  rw [hnext]
  exact ((TagRest.read_ends none _).of_leads (name_leads hrest)).bracket
    (hends ▸ hending)

/-- A start tag without a problem does not break off.  A problem is that it
breaks off, or a quote that is never closed; the tag with such a quote goes to
the end of the source unless there is a bracket behind the quote. -/
theorem problems_cases (h : StartTag.read? c = some tag) :
    (tag.problems = [] ∧ tag.ending ≠ .cut) ∨
    (tag.problems = [.unterminatedStartTag tag.name tag.span] ∧
      tag.ending = .cut) ∨
    ∃ name q, tag.problems = [.missingAttributeQuote name (q.spanTo q.toEnd)] ∧
      c.Leads q ∧
      OpensQuote q.rest ∧ q.offset < tag.next.offset ∧
      (tag.ending = .cut → '>' ∉ q.rest ∧ tag.next = q.toEnd) := by
  obtain ⟨spelled, rest, hrest, _, _, _, _, hends, hnext, _, hproblems⟩ :=
    StartTag.read?_eq_some h
  have hquote := ((TagRest.read_ends none (c.advance ('<' :: spelled))).of_leads
    (name_leads hrest)).quote
  rw [hends, hnext, hproblems]
  generalize TagRest.read none (c.advance ('<' :: spelled)) = r at hquote ⊢
  by_cases hnone : r.problems = []
  · by_cases hcut : r.ending = .cut
    · simp [hnone, hcut]
    · simp [hnone, hcut]
  · obtain ⟨name, q, hq⟩ := hquote hnone
    refine Or.inr (Or.inr ⟨name, q, ?_, hq.leads, hq.opens, hq.inside, hq.cut⟩)
    simp [hq.problems]

end StartTag

end MarkupTemplate
