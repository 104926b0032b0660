/-
The tokens of a text.  Whichever token set each of them is read with, they stand
one behind the other and leave out nothing but white space.  Each is the longest
text that the definitions of the set allow at its place, and a character at
which none of them begins is read alone.
-/
import MarkupTemplate.Tag.Scan
import MarkupTemplate.Proofs.Faithful

namespace MarkupTemplate

namespace Token

def set : Token → TokenSet
  | tag _ => .tag
  | value _ => .value

/-- The definitions of the tokens: a token and a text that spells it.  The name
or value of a token is its text without the brackets or quotes. -/
inductive Spelled : Token → List Char → Prop where
  | startOpen {name : List Char} (hname : isTagName name = true) :
      Spelled (.tag (.startOpen (String.ofList name))) ('<' :: name)
  | endOpen {name : List Char} (hname : isTagName name = true) :
      Spelled (.tag (.endOpen (String.ofList name))) ('<' :: '/' :: name)
  | close : Spelled (.tag .close) ['>']
  | selfClose : Spelled (.tag .selfClose) ['/', '>']
  | equals : Spelled (.tag .equals) ['=']
  | name {name : List Char} (hname : isAttributeName name = true) :
      Spelled (.tag (.name (String.ofList name))) name
  | quoted {quote : Char} {value : List Char}
      (hquote : quote = '"' ∨ quote = '\'') (hvalue : quote ∉ value) :
      Spelled (.value (.quoted (String.ofList value)))
        (quote :: (value ++ [quote]))
  | unterminated {quote : Char} (hquote : quote = '"' ∨ quote = '\'') :
      Spelled (.value .unterminated) [quote]
  | bare {value : List Char} (hvalue : isBareValue value = true) :
      Spelled (.value (.bare (String.ofList value))) value
  | valueClose : Spelled (.value .close) ['>']

/-- The longest match of a token set at the front of a text.  If no token of the
set is spelled there, the first character is read alone, as a stray one. -/
inductive LongestMatch (set : TokenSet) :
    List Char → Token → List Char → Prop where
  | token {token : Token} {text back : List Char} (hset : token.set = set)
      (hspelled : Spelled token text)
      (hlongest : ∀ other longer, Spelled other longer → other.set = set →
        longer <+: text ++ back → longer.length ≤ text.length) :
      LongestMatch set (text ++ back) token text
  | stray {c : Char} {back : List Char}
      (hnone : ∀ other text, Spelled other text → other.set = set →
        ¬ text <+: c :: back) :
      LongestMatch set (c :: back) (.tag .stray) [c]

theorem Spelled.ne_stray {token : Token} {text : List Char}
    (h : Spelled token text) : token ≠ .tag .stray := by
  rintro rfl
  cases h

end Token

/-- A name that is spelled at the front of a text goes on to the end of the run
of characters that it is made of. -/
theorem isTagName_append {name run : List Char} (hname : isTagName name = true)
    (hrun : ∀ c ∈ run, isTagNameChar c = true) :
    isTagName (name ++ run) = true := by
  cases name with
  | nil => simp [isTagName] at hname
  | cons c cs =>
      simp only [isTagName, Bool.and_eq_true, List.all_eq_true] at hname
      simp only [List.cons_append, isTagName, Bool.and_eq_true, List.all_append,
        List.all_eq_true]
      exact ⟨hname.1, hname.2, hrun⟩

theorem isAttributeName_append {name run : List Char}
    (hname : isAttributeName name = true)
    (hrun : ∀ c ∈ run, isAttributeNameChar c = true) :
    isAttributeName (name ++ run) = true := by
  cases name with
  | nil => simp [isAttributeName] at hname
  | cons c cs =>
      simp only [isAttributeName, Bool.and_eq_true] at hname
      rw [List.cons_append, isAttributeName, ← List.cons_append,
        List.all_append, hname.1, hname.2]
      simpa using hrun

theorem isBareValue_append {value run : List Char}
    (hvalue : isBareValue value = true)
    (hrun : ∀ c ∈ run, isBareValueChar c = true) :
    isBareValue (value ++ run) = true := by
  cases value with
  | nil => simp [isBareValue] at hvalue
  | cons c cs =>
      simp only [isBareValue, Bool.and_eq_true] at hvalue
      rw [List.cons_append, isBareValue, ← List.cons_append,
        List.all_append, hvalue.1.1, hvalue.1.2, hvalue.2]
      simpa using hrun

theorem ValueToken.first?_quote {quote : Char}
    (hquote : quote = '"' ∨ quote = '\'') (cs : List Char) :
    ValueToken.first? (quote :: cs) =
      some (ValueToken.afterQuote quote cs) := by
  rcases hquote with rfl | rfl <;> rfl

theorem ValueToken.afterQuote_open {quote : Char} {cs : List Char}
    (h : quote ∉ cs) :
    ValueToken.afterQuote quote cs = (.unterminated, [quote]) := by
  have hall : cs.takeWhile (· != quote) = cs := by
    rw [List.takeWhile_eq_self_iff]
    intro c hc
    rw [bne_iff_ne]
    rintro rfl
    exact h hc
  simp [ValueToken.afterQuote, hall]

namespace Token

/-- Where a token is spelled, one that is at least as long is read. -/
theorem Spelled.exists_first? {token : Token} {text : List Char}
    (h : Spelled token text) (rest : List Char) : ∃ longest run,
      Token.first? token.set (text ++ rest) = some (longest, text ++ run) ∧
        Spelled longest (text ++ run) := by
  have hrun (p : Char → Bool) : ∀ c ∈ rest.takeWhile p, p c = true :=
    fun _ hc => List.mem_takeWhile_imp hc
  have hsplit (p : Char → Bool) := takeWhile_append_drop p rest
  cases h with
  | startOpen hname =>
      have hlonger := isTagName_append hname (hrun isTagNameChar)
      have hread :=
        TagToken.first?_startTag hlonger (endsName_drop_takeWhile rest)
      rw [List.append_assoc, hsplit] at hread
      exact ⟨_, _, by simp [Token.first?, set, hread], .startOpen hlonger⟩
  | endOpen hname =>
      have hlonger := isTagName_append hname (hrun isTagNameChar)
      have hread :=
        TagToken.first?_endTag hlonger (endsName_drop_takeWhile rest)
      rw [List.append_assoc, hsplit] at hread
      exact ⟨_, _, by simp [Token.first?, set, hread], .endOpen hlonger⟩
  | name hname =>
      have hlonger := isAttributeName_append hname (hrun isAttributeNameChar)
      have hread :=
        TagToken.first?_name hlonger
          (head_drop_takeWhile isAttributeNameChar rest)
      rw [List.append_assoc, hsplit] at hread
      exact ⟨_, _, by simp [Token.first?, set, hread], .name hlonger⟩
  | bare hvalue =>
      have hlonger := isBareValue_append hvalue (hrun isBareValueChar)
      have hread :=
        ValueToken.first?_bare hlonger
          (head_drop_takeWhile isBareValueChar rest)
      rw [List.append_assoc, hsplit] at hread
      exact ⟨_, _, by simp [Token.first?, set, hread], .bare hlonger⟩
  | close => exact ⟨_, [], rfl, .close⟩
  | selfClose => exact ⟨_, [], rfl, .selfClose⟩
  | equals => exact ⟨_, [], rfl, .equals⟩
  | valueClose => exact ⟨_, [], rfl, .valueClose⟩
  | @quoted quote value hquote hvalue =>
      refine ⟨.value (.quoted (String.ofList value)), [], ?_, ?_⟩
      · simp [Token.first?, set, ValueToken.first?_quote hquote,
          ValueToken.afterQuote_closed hvalue]
      · rw [List.append_nil]
        exact .quoted hquote hvalue
  | @unterminated quote hquote =>
      by_cases hcloses : quote ∈ rest
      · obtain ⟨value, more, rfl, hvalue⟩ := List.eq_append_cons_of_mem hcloses
        refine ⟨.value (.quoted (String.ofList value)), value ++ [quote], ?_,
          .quoted hquote hvalue⟩
        simp [Token.first?, set, ValueToken.first?_quote hquote,
          ValueToken.afterQuote_closed hvalue]
      · refine ⟨.value .unterminated, [], ?_, .unterminated hquote⟩
        simp [Token.first?, set, ValueToken.first?_quote hquote,
          ValueToken.afterQuote_open hcloses]

/-- What is read at the front of a text: a token of the set that is spelled
there, or a bracket or slash with which none begins. -/
theorem first?_cases {set : TokenSet} {cs taken : List Char} {token : Token}
    (hspace : ∀ c ∈ cs.head?, isTagSpace c = false)
    (h : Token.first? set cs = some (token, taken)) :
    token.set = set ∧ taken <+: cs ∧ (Spelled token taken ∨
      token = .tag .stray ∧ (taken = ['<'] ∨ taken = ['/'])) := by
  cases set with
  | tag =>
      simp only [Token.first?, Option.map_eq_some_iff, Prod.mk.injEq,
        Prod.exists] at h
      obtain ⟨token, _, hread, rfl, rfl⟩ := h
      refine ⟨rfl, TagToken.first?_isPrefix hread, ?_⟩
      cases TagToken.begins hread with
      | close => exact .inl .close
      | equals => exact .inl .equals
      | selfClose => exact .inl .selfClose
      | slash => exact .inr ⟨rfl, .inr rfl⟩
      | bracket => exact .inr ⟨rfl, .inl rfl⟩
      | endOpen hname => exact .inl (.endOpen hname)
      | startOpen hname => exact .inl (.startOpen hname)
      | name =>
          have hname := TagToken.first?_eq_name hspace hread
          rw [String.toList_ofList] at hname
          exact .inl (.name hname)
  | value =>
      simp only [Token.first?, Option.map_eq_some_iff, Prod.mk.injEq,
        Prod.exists] at h
      obtain ⟨token, _, hread, rfl, rfl⟩ := h
      refine ⟨rfl, ValueToken.first?_isPrefix hread, .inl ?_⟩
      cases ValueToken.begins hread with
      | close => exact .valueClose
      | quoted _ hquote hvalue => exact .quoted hquote hvalue
      | unterminated hquote => exact .unterminated hquote
      | bare =>
          have hvalue := ValueToken.first?_eq_bare hspace hread
          rw [String.toList_ofList] at hvalue
          exact .bare hvalue

/-- The longest match is read. -/
theorem first?_longestMatch {set : TokenSet} {cs taken : List Char}
    {token : Token} (hspace : ∀ c ∈ cs.head?, isTagSpace c = false)
    (h : Token.first? set cs = some (token, taken)) :
    LongestMatch set cs token taken := by
  obtain ⟨hset, ⟨back, rfl⟩, hcases⟩ := first?_cases hspace h
  -- whatever is spelled at the front, the token that is read is spelled too,
  -- and as long
  have hreads : ∀ other text, Spelled other text → other.set = set →
      text <+: taken ++ back →
      Spelled token taken ∧ text.length ≤ taken.length := by
    rintro other text hother rfl ⟨rest, hrest⟩
    obtain ⟨longest, run, hread, hspelled⟩ := hother.exists_first? rest
    rw [hrest, h] at hread
    obtain ⟨rfl, rfl⟩ := Prod.mk.inj (Option.some.inj hread)
    exact ⟨hspelled, by simp⟩
  rcases hcases with hspelled | ⟨rfl, hstray⟩
  · exact .token hset hspelled fun other text hother hoset hfront =>
      (hreads other text hother hoset hfront).2
  · have hnone : ∀ other text, Spelled other text → other.set = set →
        ¬ text <+: taken ++ back :=
      fun other text hother hoset hfront =>
        (hreads other text hother hoset hfront).1.ne_stray rfl
    rcases hstray with rfl | rfl
    · exact .stray hnone
    · exact .stray hnone

/-- A quote that is read as never closed does not stand anywhere behind. -/
theorem first?_unterminated {set : TokenSet} {cs taken back : List Char}
    (h : Token.first? set cs = some (.value .unterminated, taken))
    (hcs : cs = taken ++ back) :
    ∀ quote ∈ taken, quote ∉ back := by
  cases set with
  | tag => simp [Token.first?] at h
  | value =>
      simp only [Token.first?, Option.map_eq_some_iff,
        Prod.mk.injEq, Prod.exists, Token.value.injEq] at h
      obtain ⟨_, _, hread, rfl, rfl⟩ := h
      cases ValueToken.begins hread with
      | unterminated hquote hrest =>
          intro quote hmem
          have hback : _ = back := (List.cons.inj hcs).2
          rwa [List.mem_singleton.mp hmem, ← hback]

end Token

/-- The token set with which the token at a position is read: the sets are taken
in turn, and the last of them stays in force. -/
def TokenSet.inForce (current : TokenSet) (sets : List TokenSet)
    (position : Nat) : TokenSet :=
  sets[position]?.getD (sets.getLast?.getD current)

theorem TokenSet.inForce_zero (current : TokenSet) (sets : List TokenSet) :
    inForce current sets 0 = sets.headD current := by
  cases sets with
  | nil => rfl
  | cons set sets => rfl

theorem TokenSet.inForce_succ (current : TokenSet) (sets : List TokenSet)
    (position : Nat) :
    inForce current sets (position + 1) =
      inForce (sets.headD current) sets.tail position := by
  cases sets with
  | nil => rfl
  | cons set sets => simp [inForce, List.getLast?_cons]

/-- A token as it stands in the source when it is read with a token set. -/
structure Lexeme.StandsIn (source : String) (set : TokenSet)
    (lexeme : Lexeme Token) : Prop where
  ofSet : lexeme.token.set = set
  fitsIn : lexeme.span.FitsIn source
  nonempty : lexeme.span.start < lexeme.span.stop
  longest : ∃ front text back, source.toList = front ++ text ++ back ∧
    lexeme.span = ⟨byteLength front, byteLength (front ++ text)⟩ ∧
    Token.LongestMatch set (text ++ back) lexeme.token text ∧
    (lexeme.token = .tag .stray → text = ['<'] ∨ text = ['/']) ∧
    (lexeme.token = .value .unterminated → ∀ quote ∈ text, quote ∉ back)

theorem Cursor.lexeme?_standsIn {source : String} {set : TokenSet}
    {c next : Cursor} {lexeme : Lexeme Token}
    (hc : (Cursor.start source.toList).Leads c)
    (h : c.lexeme? (Token.first? set) = some (lexeme, next)) :
    lexeme.StandsIn source set ∧ InOrder c [lexeme.span] next := by
  obtain ⟨taken, hread, rfl, hspan⟩ := Cursor.lexeme?_eq_some h
  obtain ⟨hset, hfront, hcases⟩ := Token.first?_cases (head_skipSpace c) hread
  have hhere := hc.trans c.leads_skipSpace
  have hnext := Cursor.leads_advance hfront
  have hpasses := hnext.passes.of_leads hhere
  obtain ⟨back, hback⟩ := hfront
  obtain ⟨front, hsource, hoffset⟩ := hhere
  simp only [Cursor.start, Nat.zero_add] at hsource hoffset
  refine ⟨⟨hset, ?_, ?_, front, taken, back, ?_, ?_, ?_, ?_, ?_⟩, ?_⟩
  · rw [hspan]
    exact hpasses.fitsIn
  · have hpos := byteLength_pos (Token.first?_ne_nil hread).2
    rw [hspan]
    simp only [Cursor.spanTo, Cursor.advance_offset]
    omega
  · rw [hsource, ← hback, List.append_assoc]
  · rw [hspan, Cursor.spanTo, Cursor.advance_offset, hoffset, byteLength_append]
  · rw [hback]
    exact Token.first?_longestMatch (head_skipSpace c) hread
  · intro hstray
    rcases hcases with hspelled | ⟨_, htaken⟩
    · exact absurd hstray hspelled.ne_stray
    · exact htaken
  · intro hopen
    rw [hopen] at hread
    exact Token.first?_unterminated hread hback.symm
  · exact ⟨_, _, c.leads_skipSpace, hnext, hspan, Cursor.Leads.refl _⟩

/-- Every byte of a run of blanks is one of them. -/
theorem Cursor.Leads.shows_blank {source : String} {c : Cursor}
    {run : List Char} {offset : Nat} (hc : (Cursor.start source.toList).Leads c)
    (hrun : run <+: c.rest) (hblank : ∀ x ∈ run, isTagSpace x = true)
    (hfrom : c.offset ≤ offset) (hto : offset < c.offset + byteLength run) :
    ∃ blank, isTagSpace blank = true ∧
      (⟨offset, offset + 1⟩ : Span).Shows source [blank] := by
  induction run generalizing c with
  | nil => simp at hto; omega
  | cons x run ih =>
      have hx := hblank x List.mem_cons_self
      have hsize : x.utf8Size = 1 := by
        simp only [isTagSpace, Bool.or_eq_true, beq_iff_eq] at hx
        rcases hx with (((rfl | rfl) | rfl) | rfl) | rfl <;> decide
      have hfirst : [x] <+: c.rest := (List.prefix_append [x] run).trans hrun
      by_cases hhere : offset = c.offset
      · subst hhere
        have hshows := hc.shows_advance hfirst
        simp only [Cursor.spanTo, Cursor.advance_offset, byteLength_cons,
          byteLength_nil, hsize] at hshows
        exact ⟨x, hx, hshows⟩
      · obtain ⟨more, hmore⟩ := hrun
        apply ih (hc.trans (Cursor.leads_advance hfirst))
        · exact ⟨more, by simp [← hmore]⟩
        · exact fun y hy => hblank y (List.mem_cons_of_mem _ hy)
        · simp [hsize]; omega
        · simp [hsize] at hto ⊢; omega

/-- A token is read from every text that is not empty. -/
theorem Token.first?_eq_none {set : TokenSet} {cs : List Char}
    (h : Token.first? set cs = none) : cs = [] := by
  cases set with
  | tag =>
      rw [Token.first?, Option.map_eq_none_iff] at h
      revert h
      fun_cases TagToken.first? cs <;> simp
  | value =>
      rw [Token.first?, Option.map_eq_none_iff] at h
      revert h
      fun_cases ValueToken.first? cs <;> simp

/-- Without a token ahead there are only blanks. -/
theorem Cursor.skipSpace_eq_toEnd {set : TokenSet} {c : Cursor}
    (h : c.lexeme? (Token.first? set) = none) : c.skipSpace = c.toEnd := by
  rw [Cursor.lexeme?, Option.map_eq_none_iff] at h
  exact c.leads_skipSpace.eq_toEnd (Token.first?_eq_none h)

section

variable {source : String} (current : TokenSet)
  (sets : List TokenSet) {c : Cursor}
  (hc : (Cursor.start source.toList).Leads c)

include hc

theorem scan_inOrder :
    InOrder c ((scan current sets c).map Lexeme.span) c.toEnd := by
  fun_induction scan current sets c with
  | case1 => exact Cursor.leads_toEnd _
  | case2 _ _ _ _ _ next h ih =>
      obtain ⟨_, hfirst⟩ := Cursor.lexeme?_standsIn hc h
      rw [← (hfirst.leads.trans next.leads_toEnd).eq_toEnd rfl]
      exact hfirst.append (ih (hc.trans hfirst.leads))

theorem scan_standsIn : ∀ (position : Nat) (lexeme : Lexeme Token),
    (scan current sets c)[position]? = some lexeme →
      lexeme.StandsIn source (.inForce current sets position) := by
  fun_induction scan current sets c with
  | case1 => simp
  | case2 current sets _ _ first _ h ih =>
      obtain ⟨hstands, hfirst⟩ := Cursor.lexeme?_standsIn hc h
      intro position lexeme hlexeme
      cases position with
      | zero =>
          obtain rfl : first = lexeme := by simpa using hlexeme
          rwa [TokenSet.inForce_zero]
      | succ position =>
          rw [TokenSet.inForce_succ]
          exact ih (hc.trans hfirst.leads) position lexeme
            (by simpa using hlexeme)

/-- The bytes in front of the token that comes next are blanks. -/
theorem Cursor.Leads.shows_skipped {offset : Nat} (hfrom : c.offset ≤ offset)
    (hto : offset < c.skipSpace.offset) :
    ∃ blank, isTagSpace blank = true ∧
      (⟨offset, offset + 1⟩ : Span).Shows source [blank] :=
  hc.shows_blank (List.takeWhile_prefix _)
    (fun _ hx => List.mem_takeWhile_imp hx) hfrom hto

theorem scan_shows_blank {offset : Nat} (hfrom : c.offset ≤ offset)
    (hto : offset < c.toEnd.offset)
    (houtside : ∀ lexeme ∈ scan current sets c, ¬ lexeme.span.Holds offset) :
    ∃ blank, isTagSpace blank = true ∧
      (⟨offset, offset + 1⟩ : Span).Shows source [blank] := by
  fun_induction scan current sets c with
  | case1 _ _ c _ h =>
      exact hc.shows_skipped hfrom (by rwa [c.skipSpace_eq_toEnd h])
  | case2 _ _ c _ lexeme next h ih =>
      obtain ⟨_, hfirst⟩ := Cursor.lexeme?_standsIn hc h
      obtain ⟨_, _, rfl, hspan⟩ := Cursor.lexeme?_eq_some h
      have hnot := houtside lexeme List.mem_cons_self
      rw [hspan, Span.Holds, Cursor.spanTo] at hnot
      by_cases hhere : offset < c.skipSpace.offset
      · exact hc.shows_skipped hfrom hhere
      · apply ih (hc.trans hfirst.leads)
        · simp only at hnot
          omega
        · rwa [hfirst.leads.end_eq]
        · exact fun later hlater =>
            houtside later (List.mem_cons_of_mem _ hlater)

end

/-- The tokens of a text tile it, whatever token set each of them is read with.
They stand one behind the other, and every byte outside of them is a blank.
Each is the longest match of the set in force at its place, and its name or
value is its text without brackets or quotes.  A stray character is a bracket or
a slash in a tag, and a quote that is never closed stands nowhere behind its
token. -/
theorem scan_tiles (source : String) (current : TokenSet)
    (sets : List TokenSet) :
    let tokens := scan current sets (Cursor.start source.toList)
    tokens.Pairwise (fun t u => t.span.stop ≤ u.span.start) ∧
      (∀ (position : Nat) (lexeme : Lexeme Token),
        tokens[position]? = some lexeme →
        lexeme.StandsIn source (.inForce current sets position)) ∧
      ∀ offset < source.utf8ByteSize,
      (∀ lexeme ∈ tokens, ¬ lexeme.span.Holds offset) →
        ∃ blank, isTagSpace blank = true ∧
          (⟨offset, offset + 1⟩ : Span).Shows source [blank] := by
  intro tokens
  have hstart := Cursor.Leads.refl (Cursor.start source.toList)
  have hinOrder := scan_inOrder current sets hstart
  refine ⟨List.pairwise_map.mp hinOrder.pairwise,
    scan_standsIn current sets hstart, ?_⟩
  intro offset hoffset houtside
  rw [← hstart.toEnd_offset] at hoffset
  exact scan_shows_blank current sets hstart (Nat.zero_le _) hoffset houtside

example :
    scan .tag [.tag, .value, .value, .tag] (Cursor.start "k 'é' \"/>".toList) =
      [⟨.tag (.name "k"), ⟨0, 1⟩⟩, ⟨.value (.quoted "é"), ⟨2, 6⟩⟩,
        ⟨.value .unterminated, ⟨7, 8⟩⟩, ⟨.tag .selfClose, ⟨8, 10⟩⟩] := by
  decide +kernel

end MarkupTemplate
