/-
Templates that the reader has nothing to complain of.  The reader lets much
pass without a complaint: brackets and braces that open nothing, end tags that
break off, values without quotes and slashes that mean nothing.  What it makes
of all that can be written again.
-/
import MarkupTemplate.Proofs.Markup

namespace MarkupTemplate

theorem head_skipSpace (c : Cursor) :
    ∀ x ∈ c.skipSpace.rest.head?, isTagSpace x = false :=
  head_drop_takeWhile isTagSpace c.rest

theorem TagToken.first?_eq_name {cs taken : List Char} {name : String}
    (hspace : ∀ x ∈ cs.head?, isTagSpace x = false)
    (h : TagToken.first? cs = some (.name name, taken)) :
    isAttributeName name.toList = true := by
  cases TagToken.begins h with
  | @name x more rest hx hmore =>
      obtain ⟨hclose, hequals, hslash, hbracket⟩ := hx
      have hfirst : isAttributeNameChar x = true := by
        simp [isAttributeNameChar, isTagNameChar, hspace x rfl, hslash,
          hclose, hequals]
      simpa [isAttributeName, hbracket, hfirst] using hmore

theorem ValueToken.first?_eq_bare {cs taken : List Char} {value : String}
    (hspace : ∀ x ∈ cs.head?, isTagSpace x = false)
    (h : ValueToken.first? cs = some (.bare value, taken)) :
    isBareValue value.toList = true := by
  cases ValueToken.begins h with
  | @bare x more rest hx hmore =>
      obtain ⟨hclose, hdouble, hsingle⟩ := hx
      have hfirst : isBareValueChar x = true := by
        simp [isBareValueChar, hspace x rfl, hclose]
      simpa [isBareValue, hdouble, hsingle, hfirst] using hmore

/-- A quoted value does not hold the quotes that enclose it. -/
theorem ValueToken.first?_eq_quoted {cs taken : List Char} {value : String}
    (h : ValueToken.first? cs = some (.quoted value, taken)) :
    '"' ∉ value.toList ∨ '\'' ∉ value.toList := by
  cases ValueToken.begins h with
  | quoted rest hquote hvalue =>
      rcases hquote with rfl | rfl
      · exact Or.inl (by simpa using hvalue)
      · exact Or.inr (by simpa using hvalue)

theorem Cursor.tagToken?_eq_name {c next : Cursor} {name : String} {span : Span}
    (h : c.tagToken? = some (⟨.name name, span⟩, next)) :
    isAttributeName name.toList = true := by
  obtain ⟨taken, hread, _⟩ := Cursor.lexeme?_eq_some h
  exact TagToken.first?_eq_name (head_skipSpace c) hread

theorem Cursor.valueToken?_eq_quoted {c next : Cursor}
    {value : String} {span : Span}
    (h : c.valueToken? = some (⟨.quoted value, span⟩, next)) :
    '"' ∉ value.toList ∨ '\'' ∉ value.toList := by
  obtain ⟨taken, hread, _⟩ := Cursor.lexeme?_eq_some h
  exact ValueToken.first?_eq_quoted hread

theorem Cursor.valueToken?_eq_bare {c next : Cursor}
    {value : String} {span : Span}
    (h : c.valueToken? = some (⟨.bare value, span⟩, next)) :
    isBareValue value.toList = true := by
  obtain ⟨taken, hread, _⟩ := Cursor.lexeme?_eq_some h
  exact ValueToken.first?_eq_bare (head_skipSpace c) hread

theorem Attribute.isReadable_ofName {name : Lexeme String}
    (hname : (name.token.toList.isEmpty || isAttributeName name.token.toList) =
      true) :
    (Attribute.ofName name).isReadable = true := by
  simpa [Attribute.isReadable, Attribute.ofName, Attribute.needsBare]
    using hname

theorem Attribute.isReadable_ofValue {name : Lexeme String}
    {value : String} (span : Span)
    (hname : (name.token.toList.isEmpty ||
      isAttributeName name.token.toList) = true)
    (hvalue : ('"' ∉ value.toList ∨ '\'' ∉ value.toList) ∨
      isBareValue value.toList = true) :
    (Attribute.ofValue name value span).isReadable = true := by
  simp only [Attribute.isReadable, Attribute.ofValue, Attribute.needsBare,
    hname, Bool.true_and]
  rcases hvalue with (hdouble | hsingle) | hbare
  · simp [hdouble]
  · simp [hsingle]
  · simp [hbare]

/-- A name still waiting for its value makes an attribute that can be written
again. -/
theorem Attribute.isReadable_waiting {pending : Option (Lexeme String)}
    (hpending : ∀ name ∈ pending, isAttributeName name.token.toList = true) :
    ∀ a ∈ pending.toList.map Attribute.ofName, a.isReadable = true := by
  intro a ha
  obtain ⟨name, hname, rfl⟩ := List.mem_map.mp ha
  exact Attribute.isReadable_ofName
    (by simp [hpending name (by simpa using hname)])

/-- The name in front of an equals sign; where there is none, it is empty. -/
theorem isEmpty_or_isAttributeName
    {pending : Option (Lexeme String)} (span : Span)
    (hpending : ∀ name ∈ pending, isAttributeName name.token.toList = true) :
    ((pending.getD ⟨"", span⟩).token.toList.isEmpty ||
      isAttributeName (pending.getD ⟨"", span⟩).token.toList) = true := by
  cases pending with
  | none => rfl
  | some name => simp [hpending name rfl]

/-- Whatever stands in a start tag, its attributes are such that they can be
written again. -/
theorem TagRest.read_isReadable (pending : Option (Lexeme String)) (c : Cursor)
    (hpending : ∀ name ∈ pending, isAttributeName name.token.toList = true) :
    ∀ a ∈ (TagRest.read pending c).attributes, a.isReadable = true := by
  fun_induction TagRest.read pending c with
  | case1 => exact Attribute.isReadable_waiting hpending
  | case2 _ _ _ _ _ _ h ih =>
      intro a ha
      rcases List.mem_append.mp ha with ha | ha
      · exact Attribute.isReadable_waiting hpending a ha
      · exact ih (by simpa using Cursor.tagToken?_eq_name h) a ha
  | case3 =>
      intro a ha
      rw [List.mem_singleton.mp ha]
      exact Attribute.isReadable_ofName (isEmpty_or_isAttributeName _ hpending)
  | case4 _ _ _ _ _ _ _ _ _ hv ih =>
      intro a ha
      rcases List.mem_append.mp ha with ha | ha
      · rw [List.mem_singleton.mp ha]
        exact Attribute.isReadable_ofValue _
          (isEmpty_or_isAttributeName _ hpending)
          (Or.inl (Cursor.valueToken?_eq_quoted hv))
      · exact ih (by simp) a ha
  | case5 _ _ _ _ _ _ _ _ _ hv ih =>
      intro a ha
      rcases List.mem_append.mp ha with ha | ha
      · rw [List.mem_singleton.mp ha]
        exact Attribute.isReadable_ofValue _
          (isEmpty_or_isAttributeName _ hpending)
          (Or.inr (Cursor.valueToken?_eq_bare hv))
      · exact ih (by simp) a ha
  | case6 =>
      intro a ha
      simp only [TagRest.afterOpenQuote] at ha
      split at ha <;> simp at ha
  | case7 =>
      intro a ha
      rw [List.mem_singleton.mp ha]
      exact Attribute.isReadable_ofName (isEmpty_or_isAttributeName _ hpending)
  | case8 => exact Attribute.isReadable_waiting hpending
  | case9 => exact Attribute.isReadable_waiting hpending
  | case10 => exact Attribute.isReadable_waiting hpending
  | case11 => exact Attribute.isReadable_waiting hpending
  | case12 _ _ _ _ _ ih => exact ih hpending

theorem StartTag.isReadable_attributes {c : Cursor} {tag : StartTag}
    (h : StartTag.read? c = some tag) :
    ∀ a ∈ tag.attributes, a.isReadable = true := by
  obtain ⟨_, _, _, _, _, _, hattributes, _⟩ := StartTag.read?_eq_some h
  rw [hattributes]
  exact TagRest.read_isReadable none _ (by simp)

/-- A start tag that breaks off is complained of. -/
theorem StartTag.ending_eq_selfClosing {c : Cursor} {tag : StartTag}
    (h : StartTag.read? c = some tag) (hclean : tag.problems = [])
    (hending : tag.ending ≠ .opened) : tag.ending = .selfClosing := by
  obtain ⟨_, _, _, _, _, _, _, hends, _, _, hproblems⟩ :=
    StartTag.read?_eq_some h
  cases hcut : tag.ending with
  | opened => exact absurd hcut hending
  | selfClosing => rfl
  | cut =>
      rw [hclean, ← hends, hcut] at hproblems
      obtain ⟨hnone, hbroken⟩ := List.append_eq_nil_iff.mp hproblems.symm
      simp [hnone] at hbroken

/-- What a closed stretch encloses ends with the first closing marker. -/
theorem Enclosed.closesFirst_body {opening closing : List Char} {c : Cursor}
    (h : (Enclosed.read opening closing c).closed = true) :
    ClosesFirst closing (Enclosed.read opening closing c).body := by
  obtain ⟨hparts, _⟩ :=
    takeUntil_spec closing.isPrefixOf (c.advance opening).rest
  simp only [Enclosed.read] at h ⊢
  split at h
  · next hclosing =>
      rw [if_pos hclosing]
      intro part hpart hne hbegins
      have hbehind := List.isPrefixOf_iff_prefix.mp hclosing
      have hstops : closing <+: part ++ _ :=
        hbegins.trans ((List.prefix_append_right_inj part).mpr hbehind)
      have hgoes := hparts part hpart hne
      simp only [← Bool.not_eq_true, List.isPrefixOf_iff_prefix] at hgoes
      exact hgoes hstops
  · contradiction

/-- What the reader makes of a text without a complaint, and what it leaves of
it.  Of tags only their brackets are told, since the rest of a tag need not be
written as it was. -/
inductive Quiet (o : ReadOptions) :
    TextMode → List String → List Char → List Node → List Char → Prop where
  | ends {mode : TextMode} {opened : List String} {tail : List Char} :
      Quiet o mode opened tail [] tail
  | comment {opened : List String} {content rest tail : List Char}
      {nodes : List Node}
      {span : Span} (hcontent : ClosesFirst "-->".toList content)
      (hlater : Quiet o .data opened rest nodes tail) :
      Quiet o .data opened ("<!--".toList ++ content ++ "-->".toList ++ rest)
        (.comment (String.ofList content) span none :: nodes) tail
  | interpolation {mode : TextMode} {opened : List String}
      {expression rest tail : List Char}
      {nodes : List Node} {span : Span}
      (hmode : mode.allowsInterpolation = true)
      (hexpression : ClosesFirst ['}', '}'] expression)
      (hlater : Quiet o mode opened rest nodes tail) :
      Quiet o mode opened (['{', '{'] ++ expression ++ ['}', '}'] ++ rest)
        (.interpolation (String.ofList expression) span none :: nodes) tail
  | text {mode : TextMode} {opened : List String}
      {content rest tail : List Char}
      {nodes : List Node} {span : Span} (hmode : mode ≠ .cdata)
      (hgoes : endsContent opened (content ++ rest) = false)
      (hmarkup : mode = .data → NoMarkup (content ++ rest))
      (hinline : mode.allowsInterpolation = true →
        ¬ ['{', '{'] <+: content ++ rest)
      (hrun : Siblings.textRun mode (content ++ rest) = content)
      (hlater : Quiet o mode opened rest nodes tail) :
      Quiet o mode opened (content ++ rest)
        (.text (String.ofList content) span none :: nodes) tail
  | selfClosing {opened : List String} {tag : String}
      {attributes : List Attribute}
      {written rest tail : List Char} {nodes : List Node} {span : Span}
      (htag : isTagName tag.toList = true)
      (hreadable : ∀ a ∈ attributes, a.isReadable = true)
      (hlater : Quiet o .data opened rest nodes tail) :
      Quiet o .data opened ('<' :: (written ++ rest))
        (.element tag attributes [] true span none :: nodes) tail
  | element {opened : List String} {tag : String} {attributes : List Attribute}
      {written inside closing rest tail : List Char}
      {children nodes : List Node} {span : Span}
      (htag : isTagName tag.toList = true)
      (hreadable : ∀ a ∈ attributes, a.isReadable = true)
      (hroom : opened.length < o.maxDepth)
      (hinside : Quiet o (TextMode.ofTag tag) (tag :: opened) inside children
        ('<' :: '/' :: (closing ++ rest)))
      (hlater : Quiet o .data opened rest nodes tail) :
      Quiet o .data opened ('<' :: (written ++ inside))
        (.element tag attributes children false span none :: nodes) tail

theorem StartTag.rest_eq {c : Cursor} {tag : StartTag}
    (h : StartTag.read? c = some tag) :
    ∃ written, c.rest = '<' :: (written ++ tag.next.rest) := by
  obtain ⟨spelled, rest, hrest, _, _, _, _, _, hnext, _⟩ :=
    StartTag.read?_eq_some h
  obtain ⟨taken, htaken, _⟩ :=
    TagRest.read_leads none (c.advance ('<' :: spelled))
  refine ⟨spelled ++ taken, ?_⟩
  have hbehind : rest = taken ++ tag.next.rest := by
    rw [hnext, ← htaken]
    simp [hrest]
  rw [hrest, hbehind, List.append_assoc]

theorem StartTag.close_eq_nil {tag : StartTag} {c : Cursor}
    (hname : isTagName tag.name.toList = true) (h : (tag.close c).1 = []) :
    ∃ closing, c.rest = '<' :: '/' :: (closing ++ (tag.close c).2.rest) := by
  unfold StartTag.close at h ⊢
  split at h
  · next hopens =>
      obtain ⟨spelled, next, hend, _⟩ := endTag?_of_opensEndTag hname hopens
      obtain ⟨chars, rest, hrest, _, _, _, hnext⟩ := endTag?_eq_some hend
      obtain ⟨taken, htaken, _⟩ :=
        endTagRest_leads (c.advance ('<' :: '/' :: chars))
      refine ⟨chars ++ taken, ?_⟩
      have hbehind : rest = taken ++ next.rest := by
        rw [hnext, ← htaken]
        simp [hrest]
      rw [if_pos hopens, hend, hrest, hbehind]
      simp
  · simp at h

/-- What is complete in itself and not complained of is no CDATA section and
no stray end tag. -/
theorem Leaf.quiet {o : ReadOptions} (hpreserve : o.whitespace = .preserve)
    {mode : TextMode} {opened : List String} {c : Cursor} {item : Siblings}
    {nodes : List Node} {tail : List Char} (h : Leaf o mode c item)
    (hgoes : endsContent opened c.rest = false)
    (hcdata : ¬ "<![CDATA[".toList <:+: c.rest) (hclean : item.diagnostics = [])
    (hlater : Quiet o mode opened item.next.rest nodes tail) :
    Quiet o mode opened c.rest (item.nodes ++ nodes) tail := by
  cases h with
  | comment hmode hopening =>
      subst hmode
      have hclosed : (Enclosed.read "<!--".toList "-->".toList c).closed =
          true := by
        by_contra hopen
        simp only [Siblings.comment, hopen] at hclean
        simp [Siblings.diagnostics] at hclean
      have hrest := Enclosed.rest_eq "-->".toList hopening
      simp only [hclosed, if_true] at hrest
      rw [hrest]
      exact .comment (Enclosed.closesFirst_body hclosed) hlater
  | cdata _ hopening => exact absurd hopening.isInfix hcdata
  | unmatched => simp [Siblings.unmatched, Siblings.diagnostics] at hclean
  | interpolation hmode hopening =>
      have hclosed : (Enclosed.read ['{', '{'] ['}', '}'] c).closed = true := by
        by_contra hopen
        simp only [Siblings.interpolation, hopen] at hclean
        simp [Siblings.diagnostics] at hclean
      have hrest := Enclosed.rest_eq ['}', '}'] hopening
      simp only [hclosed, if_true] at hrest
      rw [hrest]
      exact .interpolation hmode (Enclosed.closesFirst_body hclosed) hlater
  | text hmode hmarkup hinline =>
      have hrest : Siblings.textRun mode c.rest ++
          (Siblings.text o mode c).next.rest = c.rest :=
        List.prefix_iff_eq_append.mp (Siblings.textRun_isPrefix mode c.rest)
      have hnodes : (Siblings.text o mode c).nodes =
          [.text (String.ofList (Siblings.textRun mode c.rest))
            (c.spanTo (Siblings.text o mode c).next) none] := by
        simp [Siblings.text, hpreserve]
      have hquiet : Quiet o mode opened
          (Siblings.textRun mode c.rest ++ (Siblings.text o mode c).next.rest)
          ((Siblings.text o mode c).nodes ++ nodes) tail := by
        rw [hnodes]
        exact .text hmode (by rwa [hrest]) (by rwa [hrest]) (by rwa [hrest])
          (by rw [hrest]) hlater
      rwa [hrest] at hquiet

theorem Reads.quiet {o : ReadOptions} (hpreserve : o.whitespace = .preserve)
    {mode : TextMode} {opened : List String} {c : Cursor} {r : Siblings}
    (h : Reads o mode opened c r) (hcdata : ¬ "<![CDATA[".toList <:+: c.rest)
    (hclean : r.diagnostics = []) :
    Quiet o mode opened c.rest r.nodes r.next.rest := by
  induction h with
  | ends => exact .ends
  | leaf hgoes hleaf _ ih =>
      simp only [Siblings.diagnostics_followedBy,
        List.append_eq_nil_iff] at hclean
      have hlater :=
        ih (fun hholds => hcdata (hholds.trans hleaf.leads.suffix.isInfix))
          hclean.2
      exact hleaf.quiet hpreserve hgoes hcdata hclean.1 hlater
  | alone _ htag hending _ ih =>
      simp only [Siblings.diagnostics_followedBy, StartTag.diagnostics_alone,
        List.append_eq_nil_iff] at hclean
      have hbehind := (StartTag.read?_leads htag).suffix.isInfix
      have hlater := ih (fun hholds => hcdata (hholds.trans hbehind)) hclean.2
      -- a tag that is cut off would have been reported
      have hself := StartTag.ending_eq_selfClosing htag hclean.1.1 hending
      obtain ⟨written, hrest⟩ := StartTag.rest_eq htag
      rw [hrest]
      simp only [Siblings.nodes_followedBy, StartTag.alone,
        StartTag.element, hself]
      exact .selfClosing (StartTag.isTagName_name htag)
        (StartTag.isReadable_attributes htag) hlater
  | tooDeep => simp at hclean
  | @element _ _ tag inside _ _ htag hending hroom hinside _ ihinside ih =>
      simp only [Siblings.diagnostics_followedBy, StartTag.diagnostics_around,
        List.append_eq_nil_iff] at hclean
      have hname := StartTag.isTagName_name htag
      have hin := StartTag.read?_leads htag
      have hout := hin.trans (hinside.leads.trans (tag.close_leads inside.next))
      have hcontent := ihinside
        (fun hholds => hcdata (hholds.trans hin.suffix.isInfix)) hclean.1.1.2
      have hlater :=
        ih (fun hholds => hcdata (hholds.trans hout.suffix.isInfix)) hclean.2
      obtain ⟨written, hrest⟩ := StartTag.rest_eq htag
      obtain ⟨closing, hclosing⟩ := StartTag.close_eq_nil hname hclean.1.2
      rw [hclosing] at hcontent
      rw [hrest]
      simp only [Siblings.nodes_followedBy, StartTag.around,
        StartTag.element, hending]
      exact .element hname (StartTag.isReadable_attributes htag) hroom
        hcontent hlater

end MarkupTemplate
