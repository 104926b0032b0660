/-
Tokens inside tags.  A tag is read with two token sets: one for the tag
itself and one for the value that follows an equals sign.  Blanks between
tokens are skipped, and every token takes characters off the front of the
text, which is what makes the readers of tags end.  A whole text is read as
tokens with the token set chosen anew before each token.
-/
import MarkupTemplate.Source.Cursor

namespace MarkupTemplate

/-- White space that separates the parts of a tag. -/
def isTagSpace (c : Char) : Bool :=
  c == '\t' || c == '\r' || c == '\n' || c == '\x0c' || c == ' '

/-- Characters that go on with the name of a tag. -/
def isTagNameChar (c : Char) : Bool :=
  !isTagSpace c && c != '/' && c != '>'

/-- Characters that go on with the name of an attribute. -/
def isAttributeNameChar (c : Char) : Bool :=
  isTagNameChar c && c != '='

/-- Characters that go on with a value without quotes. -/
def isBareValueChar (c : Char) : Bool :=
  !isTagSpace c && c != '>'

inductive TagToken where
  | startOpen (name : String)
  | endOpen (name : String)
  | close
  | selfClose
  | equals
  | name (name : String)
  /-- A character that begins no token. -/
  | stray
  deriving Repr, DecidableEq

inductive ValueToken where
  | quoted (value : String)
  /-- A quote that is never closed; the token is the quote alone. -/
  | unterminated
  | bare (value : String)
  | close
  deriving Repr, DecidableEq

/-- The token of a tag at the front of a text, with its characters. -/
def TagToken.first? : List Char → Option (TagToken × List Char)
  | [] => none
  | '>' :: _ => some (.close, ['>'])
  | '=' :: _ => some (.equals, ['='])
  | '/' :: '>' :: _ => some (.selfClose, ['/', '>'])
  | '/' :: _ => some (.stray, ['/'])
  | '<' :: '/' :: c :: cs =>
      if c.isAlpha then
        let name := c :: cs.takeWhile isTagNameChar
        some (.endOpen (String.ofList name), '<' :: '/' :: name)
      else some (.stray, ['<'])
  | '<' :: c :: cs =>
      if c.isAlpha then
        let name := c :: cs.takeWhile isTagNameChar
        some (.startOpen (String.ofList name), '<' :: name)
      else some (.stray, ['<'])
  | '<' :: _ => some (.stray, ['<'])
  | c :: cs =>
      let name := c :: cs.takeWhile isAttributeNameChar
      some (.name (String.ofList name), name)

/-- The token behind a quote, with its characters. -/
def ValueToken.afterQuote (quote : Char) (cs : List Char) :
    ValueToken × List Char :=
  let value := cs.takeWhile (· != quote)
  if (cs.drop value.length).isEmpty then (.unterminated, [quote])
  else (.quoted (String.ofList value), quote :: (value ++ [quote]))

/-- The token of a value at the front of a text, with its characters. -/
def ValueToken.first? : List Char → Option (ValueToken × List Char)
  | [] => none
  | '>' :: _ => some (.close, ['>'])
  | '"' :: cs => some (afterQuote '"' cs)
  | '\'' :: cs => some (afterQuote '\'' cs)
  | c :: cs =>
      let value := c :: cs.takeWhile isBareValueChar
      some (.bare (String.ofList value), value)

/-- A token and where it stands in the source. -/
structure Lexeme (τ : Type) where
  token : τ
  span : Span
  deriving Repr, DecidableEq

namespace Cursor

/-- The cursor behind the blanks that may stand between tokens. -/
def skipSpace (c : Cursor) : Cursor :=
  c.advance (c.rest.takeWhile isTagSpace)

/-- The next token of a token set, and the cursor behind it. -/
def lexeme? {τ : Type} (first? : List Char → Option (τ × List Char))
    (c : Cursor) : Option (Lexeme τ × Cursor) :=
  let here := c.skipSpace
  (first? here.rest).map fun (token, taken) =>
    let next := here.advance taken
    (⟨token, here.spanTo next⟩, next)

def tagToken? (c : Cursor) : Option (Lexeme TagToken × Cursor) :=
  c.lexeme? TagToken.first?

def valueToken? (c : Cursor) : Option (Lexeme ValueToken × Cursor) :=
  c.lexeme? ValueToken.first?

end Cursor

theorem TagToken.first?_ne_nil {cs taken : List Char} {token : TagToken}
    (h : TagToken.first? cs = some (token, taken)) : cs ≠ [] ∧ taken ≠ [] := by
  unfold TagToken.first? at h
  split at h <;> first | contradiction | skip
  all_goals
    try split at h
    all_goals
      simp only [Option.some.injEq, Prod.mk.injEq] at h
      simp [← h.2]

theorem ValueToken.afterQuote_ne_nil (quote : Char) (cs : List Char) :
    (ValueToken.afterQuote quote cs).2 ≠ [] := by
  simp only [ValueToken.afterQuote]
  split <;> simp

theorem ValueToken.first?_ne_nil {cs taken : List Char} {token : ValueToken}
    (h : ValueToken.first? cs = some (token, taken)) :
    cs ≠ [] ∧ taken ≠ [] := by
  unfold ValueToken.first? at h
  split at h
  · contradiction
  · simp only [Option.some.injEq, Prod.mk.injEq] at h
    simp [← h.2]
  · rename_i rest
    have hquote := ValueToken.afterQuote_ne_nil '"' rest
    rw [Option.some.inj h] at hquote
    exact ⟨by simp, hquote⟩
  · rename_i rest
    have hquote := ValueToken.afterQuote_ne_nil '\'' rest
    rw [Option.some.inj h] at hquote
    exact ⟨by simp, hquote⟩
  · simp only [Option.some.injEq, Prod.mk.injEq] at h
    simp [← h.2]

theorem Cursor.lexeme?_length_lt {τ : Type}
    {first? : List Char → Option (τ × List Char)}
    (hfirst : ∀ {cs taken token}, first? cs = some (token, taken) →
      cs ≠ [] ∧ taken ≠ [])
    {c next : Cursor} {lexeme : Lexeme τ}
    (h : c.lexeme? first? = some (lexeme, next)) :
    next.rest.length < c.rest.length := by
  unfold Cursor.lexeme? at h
  simp only [Option.map_eq_some_iff, Prod.mk.injEq, Prod.exists] at h
  obtain ⟨token, taken, hread, _, rfl⟩ := h
  obtain ⟨hrest, htaken⟩ := hfirst hread
  exact Nat.lt_of_lt_of_le (Cursor.advance_length_lt hrest htaken)
    (Cursor.advance_length_le _ _)

theorem Cursor.tagToken?_length_lt {c next : Cursor} {lexeme : Lexeme TagToken}
    (h : c.tagToken? = some (lexeme, next)) :
    next.rest.length < c.rest.length :=
  Cursor.lexeme?_length_lt TagToken.first?_ne_nil h

theorem Cursor.valueToken?_length_lt {c next : Cursor}
    {lexeme : Lexeme ValueToken} (h : c.valueToken? = some (lexeme, next)) :
    next.rest.length < c.rest.length :=
  Cursor.lexeme?_length_lt ValueToken.first?_ne_nil h

inductive TokenSet where
  | tag
  | value
  deriving Repr, DecidableEq, Inhabited

inductive Token where
  | tag (token : TagToken)
  | value (token : ValueToken)
  deriving Repr, DecidableEq

/-- The token at the front of a text, with its characters. -/
def Token.first? : TokenSet → List Char → Option (Token × List Char)
  | .tag, cs =>
      (TagToken.first? cs).map fun (token, taken) => (.tag token, taken)
  | .value, cs =>
      (ValueToken.first? cs).map fun (token, taken) => (.value token, taken)

theorem Token.first?_ne_nil {set : TokenSet} {cs taken : List Char}
    {token : Token} (h : Token.first? set cs = some (token, taken)) :
    cs ≠ [] ∧ taken ≠ [] := by
  cases set with
  | tag =>
      simp only [Token.first?, Option.map_eq_some_iff, Prod.mk.injEq,
        Prod.exists] at h
      obtain ⟨_, _, hread, _, rfl⟩ := h
      exact TagToken.first?_ne_nil hread
  | value =>
      simp only [Token.first?, Option.map_eq_some_iff, Prod.mk.injEq,
        Prod.exists] at h
      obtain ⟨_, _, hread, _, rfl⟩ := h
      exact ValueToken.first?_ne_nil hread

/-- The tokens ahead of a cursor.  `sets` names the token set of each token in
turn; once they run out, `current` stays in force. -/
def scan (current : TokenSet) (sets : List TokenSet) (c : Cursor) :
    List (Lexeme Token) :=
  let set := sets.headD current
  match _ : c.lexeme? (Token.first? set) with
  | none => []
  | some (lexeme, next) => lexeme :: scan set sets.tail next
termination_by c.rest.length
decreasing_by exact Cursor.lexeme?_length_lt Token.first?_ne_nil (by assumption)

end MarkupTemplate
