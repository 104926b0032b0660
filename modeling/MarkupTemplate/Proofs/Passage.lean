/-
How the readers move through the source.  Every reader goes on behind
characters that lay ahead of it, so its offsets count the bytes that it took
and never leave the places between two characters.
-/
import MarkupTemplate.Content.Read
import MarkupTemplate.Proofs.Token

namespace MarkupTemplate

theorem byteLength_pos {cs : List Char} (h : cs ≠ []) : 0 < byteLength cs := by
  cases cs with
  | nil => exact absurd rfl h
  | cons c cs =>
      have hsize := c.utf8Size_pos
      simp only [byteLength_cons]
      omega

theorem byteLength_toList (source : String) :
    byteLength source.toList = source.utf8ByteSize := by
  have hlist : ∀ cs : List Char,
      byteLength cs = (String.ofList cs).utf8ByteSize := by
    intro cs
    induction cs with
    | nil => simp
    | cons c cs ih =>
        rw [byteLength_cons, ih, ← List.singleton_append, String.ofList_append,
          String.utf8ByteSize_append]
        simp
  simpa using hlist source.toList

theorem takeUntil_isPrefix (stops : List Char → Bool) (cs : List Char) :
    takeUntil stops cs <+: cs := by
  induction cs with
  | nil => simp [takeUntil]
  | cons c cs ih =>
      simp only [takeUntil]
      split
      · exact List.nil_prefix
      · exact List.cons_prefix_cons.mpr ⟨rfl, ih⟩

/-- The text up to a stop: nothing before the stop is one, and behind the text
the source ends or the stop stands. -/
theorem takeUntil_spec (stops : List Char → Bool) (cs : List Char) :
    let rest := cs.drop (takeUntil stops cs).length
    (∀ part, part <:+ takeUntil stops cs → part ≠ [] →
      stops (part ++ rest) = false) ∧
      (rest = [] ∨ stops rest = true) := by
  induction cs with
  | nil => exact ⟨by simp [takeUntil], Or.inl rfl⟩
  | cons c cs ih =>
      simp only [takeUntil]
      split
      · next hstops => exact ⟨by simp, Or.inr hstops⟩
      · next hgoes =>
          refine ⟨fun part hpart hne => ?_, ih.2⟩
          rcases List.suffix_cons_iff.mp hpart with rfl | hpart
          · rw [List.length_cons, List.drop_succ_cons, List.cons_append,
              List.prefix_iff_eq_append.mp (takeUntil_isPrefix stops cs)]
            simpa using hgoes
          · exact ih.1 part hpart hne

namespace Cursor

/-- The second cursor stands behind characters that lie ahead of the first. -/
def Leads (c d : Cursor) : Prop :=
  ∃ taken, c.rest = taken ++ d.rest ∧ d.offset = c.offset + byteLength taken

theorem Leads.refl (c : Cursor) : c.Leads c := ⟨[], by simp⟩

theorem Leads.trans {c d e : Cursor} (hcd : c.Leads d) (hde : d.Leads e) :
    c.Leads e := by
  obtain ⟨first, hrest, hoffset⟩ := hcd
  obtain ⟨second, hrest', hoffset'⟩ := hde
  refine ⟨first ++ second, ?_, ?_⟩
  · rw [hrest, hrest', List.append_assoc]
  · rw [hoffset', hoffset, byteLength_append, Nat.add_assoc]

theorem Leads.offset_le {c d : Cursor} (h : c.Leads d) :
    c.offset ≤ d.offset := by
  obtain ⟨taken, _, hoffset⟩ := h
  omega

theorem Leads.suffix {c d : Cursor} (h : c.Leads d) : d.rest <:+ c.rest := by
  obtain ⟨taken, hrest, _⟩ := h
  exact ⟨taken, hrest.symm⟩

theorem Leads.offset_lt {c d : Cursor} (h : c.Leads d)
    (hlength : d.rest.length < c.rest.length) : c.offset < d.offset := by
  obtain ⟨taken, hrest, hoffset⟩ := h
  have htaken : taken ≠ [] := by
    intro hnil
    simp [hrest, hnil] at hlength
  have hpos := byteLength_pos htaken
  omega

/-- Wherever reading stands, what is behind and what is ahead make up the
whole source. -/
theorem Leads.end_eq {c d : Cursor} (h : c.Leads d) :
    d.toEnd.offset = c.toEnd.offset := by
  obtain ⟨taken, hrest, hoffset⟩ := h
  simp only [toEnd, hrest, hoffset, byteLength_append]
  omega

theorem Leads.eq_toEnd {c d : Cursor} (h : c.Leads d) (hrest : d.rest = []) :
    d = c.toEnd := by
  have hoffset := h.end_eq
  cases d with
  | mk offset rest =>
      subst hrest
      simpa [toEnd] using hoffset

/-- Of two places the one further on is reached from the other. -/
theorem Leads.of_offset_le {b c d : Cursor} (hc : b.Leads c) (hd : b.Leads d)
    (hle : c.offset ≤ d.offset) : c.Leads d := by
  obtain ⟨first, hrest, hoffset⟩ := hc
  obtain ⟨second, hrest', hoffset'⟩ := hd
  rcases List.append_eq_append_iff.mp (hrest.symm.trans hrest') with
    ⟨between, rfl, hbetween⟩ | ⟨between, rfl, hbetween⟩
  · refine ⟨between, hbetween, ?_⟩
    rw [hoffset', hoffset, byteLength_append, Nat.add_assoc]
  · rw [byteLength_append] at hoffset
    have hnone : between = [] := by
      by_contra hne
      have hpos := byteLength_pos hne
      omega
    subst hnone
    exact ⟨[], by simpa using hbetween.symm, by simp at hoffset ⊢; omega⟩

/-- A place is told by its offset. -/
theorem Leads.eq_of_offset {b c d : Cursor} (hc : b.Leads c) (hd : b.Leads d)
    (hoffset : c.offset = d.offset) : c = d := by
  obtain ⟨taken, hrest, htaken⟩ := hc.of_offset_le hd (Nat.le_of_eq hoffset)
  have hnone : taken = [] := by
    by_contra hne
    have hpos := byteLength_pos hne
    omega
  subst hnone
  cases c with
  | mk offset rest => cases d with
    | mk offset' rest' => simp_all

/-- A place inside a run has an end of the run ahead. -/
theorem Leads.exists_suffix {c d : Cursor} {run : List Char} (h : c.Leads d)
    (hrun : run <+: c.rest) (hlt : d.offset < c.offset + byteLength run) :
    ∃ later, later ≠ [] ∧ later <:+ run ∧ later <+: d.rest := by
  obtain ⟨taken, hrest, hoffset⟩ := h
  obtain ⟨more, hmore⟩ := hrun
  rcases List.append_eq_append_iff.mp (hmore.trans hrest) with
    ⟨later, htaken, _⟩ | ⟨later, hsplit, hahead⟩
  · rw [htaken, byteLength_append] at hoffset
    omega
  · refine ⟨later, ?_, ⟨taken, hsplit.symm⟩, ⟨more, hahead.symm⟩⟩
    rintro rfl
    rw [hsplit, List.append_nil] at hlt
    omega

theorem leads_advance {c : Cursor} {taken : List Char} (h : taken <+: c.rest) :
    c.Leads (c.advance taken) :=
  ⟨taken, (List.prefix_iff_eq_append.mp h).symm, rfl⟩

theorem advance_append (c : Cursor) (first later : List Char) :
    c.advance (first ++ later) = (c.advance first).advance later := by
  simp [advance, Nat.add_assoc]

theorem rest_advance_of_eq {c : Cursor} {taken rest : List Char}
    (hrest : c.rest = taken ++ rest) : (c.advance taken).rest = rest := by
  simp [hrest]

theorem leads_toEnd (c : Cursor) : c.Leads c.toEnd := ⟨c.rest, by simp [toEnd]⟩

theorem leads_skipSpace (c : Cursor) : c.Leads c.skipSpace :=
  leads_advance (List.takeWhile_prefix _)

end Cursor

/-- A place between two characters of the source, as a cursor from its
beginning finds it. -/
theorem Cursor.Leads.isValid {source : String} {c : Cursor}
    (h : (Cursor.start source.toList).Leads c) :
    (⟨c.offset⟩ : String.Pos.Raw).IsValid source := by
  obtain ⟨taken, hrest, hoffset⟩ := h
  rw [String.Pos.Raw.isValid_iff_exists_append]
  refine ⟨String.ofList taken, String.ofList c.rest, ?_, ?_⟩
  · rw [← String.ofList_append, ← hrest]
    simp [Cursor.start]
  · have hbytes := byteLength_toList (String.ofList taken)
    simp only [String.toList_ofList] at hbytes
    simp only [Cursor.start] at hoffset
    apply String.Pos.Raw.ext
    simp only [String.byteIdx_rawEndPos]
    omega

/-- What is behind and what is ahead are together as long as the source. -/
theorem Cursor.Leads.toEnd_offset {source : String} {c : Cursor}
    (h : (Cursor.start source.toList).Leads c) :
    c.toEnd.offset = source.utf8ByteSize := by
  rw [h.end_eq, ← byteLength_toList]
  simp [Cursor.toEnd, Cursor.start]

/-- A token stands behind the blanks in front of it, and reading goes on right
behind the token. -/
theorem Cursor.lexeme?_eq_some {τ : Type}
    {first? : List Char → Option (τ × List Char)} {c next : Cursor}
    {lexeme : Lexeme τ} (h : c.lexeme? first? = some (lexeme, next)) :
    ∃ taken, first? c.skipSpace.rest = some (lexeme.token, taken) ∧
      next = c.skipSpace.advance taken ∧
      lexeme.span = c.skipSpace.spanTo next := by
  unfold Cursor.lexeme? at h
  simp only [Option.map_eq_some_iff, Prod.mk.injEq, Prod.exists] at h
  obtain ⟨token, taken, hread, rfl, rfl⟩ := h
  exact ⟨taken, hread, rfl, rfl⟩

theorem Cursor.tagToken?_leads {c next : Cursor} {lexeme : Lexeme TagToken}
    (h : c.tagToken? = some (lexeme, next)) : c.Leads next := by
  obtain ⟨taken, hread, rfl, _⟩ := Cursor.lexeme?_eq_some h
  exact c.leads_skipSpace.trans
    (Cursor.leads_advance (TagToken.first?_isPrefix hread))

theorem Cursor.valueToken?_leads {c next : Cursor} {lexeme : Lexeme ValueToken}
    (h : c.valueToken? = some (lexeme, next)) : c.Leads next := by
  obtain ⟨taken, hread, rfl, _⟩ := Cursor.lexeme?_eq_some h
  exact c.leads_skipSpace.trans
    (Cursor.leads_advance (ValueToken.first?_isPrefix hread))

theorem TagRest.afterOpenQuote_leads (name : Lexeme String) (quote : Span)
    (c : Cursor) : c.Leads (TagRest.afterOpenQuote name quote c).next := by
  have hhere : c.Leads (c.advance (c.rest.takeWhile (· != '>'))) :=
    Cursor.leads_advance (List.takeWhile_prefix _)
  simp only [TagRest.afterOpenQuote]
  split
  · exact hhere
  · next hclosed =>
      refine hhere.trans (Cursor.leads_advance ?_)
      rcases drop_takeWhile_ne '>' c.rest with hnil | ⟨more, hmore⟩
      · simp [hnil] at hclosed
      · exact ⟨more, by simp [hmore]⟩

theorem TagRest.read_leads (pending : Option (Lexeme String)) (c : Cursor) :
    c.Leads (TagRest.read pending c).next := by
  fun_induction TagRest.read pending c with
  | case1 => exact Cursor.leads_toEnd _
  | case2 _ _ _ _ _ _ h ih => exact (Cursor.tagToken?_leads h).trans ih
  | case3 _ _ _ _ h =>
      exact (Cursor.tagToken?_leads h).trans (Cursor.leads_toEnd _)
  | case4 _ _ _ _ h _ _ _ _ hv ih =>
      exact (Cursor.tagToken?_leads h).trans
        ((Cursor.valueToken?_leads hv).trans ih)
  | case5 _ _ _ _ h _ _ _ _ hv ih =>
      exact (Cursor.tagToken?_leads h).trans
        ((Cursor.valueToken?_leads hv).trans ih)
  | case6 _ _ _ _ h _ _ _ hv =>
      exact (Cursor.tagToken?_leads h).trans
        ((Cursor.valueToken?_leads hv).trans
          (TagRest.afterOpenQuote_leads _ _ _))
  | case7 _ _ _ _ h _ _ _ hv =>
      exact (Cursor.tagToken?_leads h).trans (Cursor.valueToken?_leads hv)
  | case8 _ _ _ _ _ h => exact Cursor.tagToken?_leads h
  | case9 _ _ _ _ _ h => exact Cursor.tagToken?_leads h
  | case10 => exact Cursor.leads_skipSpace _
  | case11 => exact Cursor.leads_skipSpace _
  | case12 _ _ _ _ h ih => exact (Cursor.tagToken?_leads h).trans ih

theorem StartTag.read?_leads {c : Cursor} {tag : StartTag}
    (h : StartTag.read? c = some tag) : c.Leads tag.next := by
  unfold StartTag.read? at h
  split at h
  · next name taken hread =>
      rw [← Option.some.inj h]
      exact (Cursor.leads_advance (TagToken.first?_isPrefix hread)).trans
        (TagRest.read_leads _ _)
  · contradiction

theorem endTagRest_leads (c : Cursor) : c.Leads (endTagRest c) := by
  fun_induction endTagRest c with
  | case1 => exact Cursor.Leads.refl _
  | case2 _ _ _ h => exact Cursor.tagToken?_leads h
  | case3 _ _ _ h => exact Cursor.tagToken?_leads h
  | case4 => exact Cursor.Leads.refl _
  | case5 => exact Cursor.Leads.refl _
  | case6 _ _ _ _ h ih => exact (Cursor.tagToken?_leads h).trans ih
  | case7 _ _ _ h ih => exact (Cursor.tagToken?_leads h).trans ih
  | case8 _ _ _ h ih => exact (Cursor.tagToken?_leads h).trans ih

theorem endTag?_leads {c next : Cursor} {name : String}
    (h : endTag? c = some (name, next)) : c.Leads next := by
  unfold endTag? at h
  split at h
  · next name taken hread =>
      simp only [Option.some.injEq, Prod.mk.injEq] at h
      rw [← h.2]
      exact (Cursor.leads_advance (TagToken.first?_isPrefix hread)).trans
        (endTagRest_leads _)
  · contradiction

theorem StartTag.close_leads (tag : StartTag) (c : Cursor) :
    c.Leads (tag.close c).2 := by
  unfold StartTag.close
  split
  · cases h : endTag? c with
    | none => exact Cursor.Leads.refl _
    | some found => exact endTag?_leads h
  · exact Cursor.Leads.refl _

/-- An enclosed stretch is its opening marker, its body and, unless the source
ends first, its closing marker. -/
theorem Enclosed.rest_eq {opening : List Char}
    (closing : List Char) {c : Cursor} (hopening : opening <+: c.rest) :
    let e := Enclosed.read opening closing c
    c.rest = opening ++ e.body ++ (if e.closed then closing else []) ++
      e.next.rest := by
  have hinside : opening ++ c.rest.drop opening.length = c.rest :=
    List.prefix_iff_eq_append.mp hopening
  have hbody := List.prefix_iff_eq_append.mp
    (takeUntil_isPrefix closing.isPrefixOf (c.rest.drop opening.length))
  simp only [Enclosed.read]
  split
  · next hclosing =>
      have hclosed :=
        List.prefix_iff_eq_append.mp (List.isPrefixOf_iff_prefix.mp hclosing)
      simp only [Cursor.advance_rest] at hclosed ⊢
      simp only [if_true, List.append_assoc, hclosed, hbody, hinside]
  · simp only [Cursor.advance_rest, Bool.false_eq_true, if_false,
      List.append_nil, List.append_assoc, hbody, hinside]

theorem Enclosed.body_isPrefix (opening closing : List Char) (c : Cursor) :
    (Enclosed.read opening closing c).body <+: (c.advance opening).rest := by
  have hbody : (Enclosed.read opening closing c).body =
      takeUntil closing.isPrefixOf (c.advance opening).rest := by
    simp only [Enclosed.read]
    split <;> rfl
  rw [hbody]
  exact takeUntil_isPrefix _ _

theorem Enclosed.leads_body (opening closing : List Char) (c : Cursor) :
    let inside := c.advance opening
    inside.Leads (inside.advance (Enclosed.read opening closing c).body) :=
  Cursor.leads_advance (Enclosed.body_isPrefix opening closing c)

theorem Enclosed.next_offset (opening closing : List Char) (c : Cursor) :
    let e := Enclosed.read opening closing c
    e.next.offset = c.offset + byteLength opening + byteLength e.body +
      byteLength (if e.closed then closing else []) := by
  simp only [Enclosed.read]
  split <;> simp

theorem Enclosed.read_leads {opening : List Char}
    (closing : List Char) {c : Cursor} (hopening : opening <+: c.rest) :
    c.Leads (Enclosed.read opening closing c).next := by
  refine ⟨_, Enclosed.rest_eq closing hopening, ?_⟩
  have hoffset := Enclosed.next_offset opening closing c
  simp only [byteLength_append] at hoffset ⊢
  omega

end MarkupTemplate
