/-
What the tokens inside tags look like.  A token is told by the characters that
begin it and goes on as far as it can, so each kind of token comes with the
text it was read from.
-/
import Mathlib
import MarkupTemplate.Tag.Scan

namespace MarkupTemplate

/-- A run of characters ends in front of one that does not go on with it. -/
theorem head_drop_takeWhile (p : Char → Bool) (cs : List Char) :
    ∀ x ∈ (cs.drop (cs.takeWhile p).length).head?, p x = false := by
  induction cs with
  | nil => simp
  | cons c cs ih =>
      cases hc : p c with
      | true => simpa [List.takeWhile_cons, hc] using ih
      | false => simp [hc]

theorem drop_takeWhile_ne (stop : Char) (cs : List Char) :
    cs.drop (cs.takeWhile (· != stop)).length = [] ∨
      ∃ more, cs.drop (cs.takeWhile (· != stop)).length = stop :: more := by
  have hhead := head_drop_takeWhile (· != stop) cs
  cases hdrop : cs.drop (cs.takeWhile (· != stop)).length with
  | nil => exact Or.inl rfl
  | cons x more =>
      rw [hdrop] at hhead
      have hx : x = stop := by simpa using hhead x rfl
      exact Or.inr ⟨more, by rw [hx]⟩

theorem takeWhile_append_drop (p : Char → Bool) (cs : List Char) :
    cs.takeWhile p ++ cs.drop (cs.takeWhile p).length = cs :=
  List.prefix_iff_eq_append.mp (List.takeWhile_prefix p)

/-- A run of characters is taken whole when what follows does not go on with
it. -/
theorem takeWhile_run {p : Char → Bool} {run rest : List Char}
    (hrun : ∀ c ∈ run, p c = true) (hrest : ∀ c ∈ rest.head?, p c = false) :
    (run ++ rest).takeWhile p = run := by
  rw [List.takeWhile_append_of_pos hrun]
  cases rest with
  | nil => simp
  | cons c cs => simp [hrest c rfl]

/-- Two runs of the same sort of characters are the same, and so is what ends
them, if the texts are. -/
theorem cancel_run {p : Char → Bool} {run run' rest rest' : List Char}
    (hrun : ∀ c ∈ run, p c = true) (hrun' : ∀ c ∈ run', p c = true)
    (hrest : ∀ c ∈ rest.head?, p c = false)
    (hrest' : ∀ c ∈ rest'.head?, p c = false)
    (h : run ++ rest = run' ++ rest') : run = run' ∧ rest = rest' := by
  have hsame : run = run' := by
    rw [← takeWhile_run hrun hrest, h, takeWhile_run hrun' hrest']
  rw [hsame] at h
  exact ⟨hsame, List.append_cancel_left h⟩

theorem isDigit_of_mem_digits {n : Nat} :
    ∀ c ∈ Nat.toDigits 10 n, c.isDigit = true :=
  fun _ hc => Nat.isDigit_of_mem_toDigits (by decide) (by decide) hc

/-- A letter and then characters that go on with the name of a tag. -/
def isTagName : List Char → Bool
  | [] => false
  | c :: cs => c.isAlpha && cs.all isTagNameChar

def endsName : List Char → Bool
  | [] => true
  | c :: _ => !isTagNameChar c

theorem isTagName_cons_takeWhile {c : Char} (cs : List Char)
    (h : c.isAlpha = true) :
    isTagName (c :: cs.takeWhile isTagNameChar) = true := by
  simp [isTagName, h]

theorem endsName_drop_takeWhile (cs : List Char) :
    endsName (cs.drop (cs.takeWhile isTagNameChar).length) = true := by
  have hhead := head_drop_takeWhile isTagNameChar cs
  cases hdrop : cs.drop (cs.takeWhile isTagNameChar).length with
  | nil => rfl
  | cons x more =>
      rw [hdrop] at hhead
      simp [endsName, hhead x rfl]

/-- A text, the token at its front and the characters of the token. -/
inductive TagToken.Begins : List Char → TagToken → List Char → Prop where
  | close (rest : List Char) : Begins ('>' :: rest) .close ['>']
  | equals (rest : List Char) : Begins ('=' :: rest) .equals ['=']
  | selfClose (rest : List Char) :
      Begins ('/' :: '>' :: rest) .selfClose ['/', '>']
  | slash (rest : List Char) : Begins ('/' :: rest) .stray ['/']
  | endOpen {spelled rest : List Char} (hname : isTagName spelled = true)
      (hends : endsName rest = true) :
      Begins ('<' :: '/' :: (spelled ++ rest))
        (.endOpen (String.ofList spelled)) ('<' :: '/' :: spelled)
  | startOpen {spelled rest : List Char} (hname : isTagName spelled = true)
      (hends : endsName rest = true) :
      Begins ('<' :: (spelled ++ rest)) (.startOpen (String.ofList spelled))
        ('<' :: spelled)
  | bracket (rest : List Char) : Begins ('<' :: rest) .stray ['<']
  | name {x : Char} {more : List Char} (rest : List Char)
      (hx : x ≠ '>' ∧ x ≠ '=' ∧ x ≠ '/' ∧ x ≠ '<')
      (hmore : ∀ y ∈ more, isAttributeNameChar y = true) :
      Begins (x :: (more ++ rest))
        (.name (String.ofList (x :: more))) (x :: more)

theorem TagToken.begins {cs taken : List Char} {token : TagToken}
    (h : TagToken.first? cs = some (token, taken)) :
    TagToken.Begins cs token taken := by
  revert h
  fun_cases TagToken.first? cs with
  | case1 => simp
  | case2 rest => rintro ⟨⟩; exact .close rest
  | case3 rest => rintro ⟨⟩; exact .equals rest
  | case4 rest => rintro ⟨⟩; exact .selfClose rest
  | case5 rest => rintro ⟨⟩; exact .slash rest
  | case6 c cs halpha =>
      rintro ⟨⟩
      have hbegins :=
        TagToken.Begins.endOpen (isTagName_cons_takeWhile cs halpha)
        (endsName_drop_takeWhile cs)
      rwa [List.cons_append, takeWhile_append_drop] at hbegins
  | case7 => rintro ⟨⟩; exact .bracket _
  | case8 c cs _ halpha =>
      rintro ⟨⟩
      have hbegins :=
        TagToken.Begins.startOpen (isTagName_cons_takeWhile cs halpha)
        (endsName_drop_takeWhile cs)
      rwa [List.cons_append, takeWhile_append_drop] at hbegins
  | case9 => rintro ⟨⟩; exact .bracket _
  | case10 => rintro ⟨⟩; exact .bracket _
  | case11 x cs hclose hequals _ hslash _ _ hbracket =>
      intro h
      obtain ⟨rfl, rfl⟩ := Prod.mk.inj (Option.some.inj h)
      have hmore : ∀ y ∈ cs.takeWhile isAttributeNameChar,
          isAttributeNameChar y = true :=
        fun _ hy => List.mem_takeWhile_imp hy
      have hbegins :=
        TagToken.Begins.name (cs.drop (cs.takeWhile isAttributeNameChar).length)
        ⟨hclose, hequals, hslash, hbracket⟩ hmore
      rwa [takeWhile_append_drop] at hbegins

theorem TagToken.first?_isPrefix {cs taken : List Char} {token : TagToken}
    (h : TagToken.first? cs = some (token, taken)) : taken <+: cs := by
  cases TagToken.begins h <;> simp

/-- A text, the token of a value at its front and the characters of the
token. -/
inductive ValueToken.Begins : List Char → ValueToken → List Char → Prop where
  | close (rest : List Char) : Begins ('>' :: rest) .close ['>']
  | quoted {quote : Char} {value : List Char} (rest : List Char)
      (hquote : quote = '"' ∨ quote = '\'') (hvalue : quote ∉ value) :
      Begins (quote :: (value ++ quote :: rest)) (.quoted (String.ofList value))
        (quote :: (value ++ [quote]))
  | unterminated {quote : Char} {rest : List Char}
      (hquote : quote = '"' ∨ quote = '\'')
      (hrest : quote ∉ rest) : Begins (quote :: rest) .unterminated [quote]
  | bare {x : Char} {more : List Char} (rest : List Char)
      (hx : x ≠ '>' ∧ x ≠ '"' ∧ x ≠ '\'')
      (hmore : ∀ y ∈ more, isBareValueChar y = true) :
      Begins (x :: (more ++ rest))
        (.bare (String.ofList (x :: more))) (x :: more)

theorem ValueToken.begins_afterQuote {quote : Char}
    (hquote : quote = '"' ∨ quote = '\'') (cs : List Char) :
    ValueToken.Begins (quote :: cs) (ValueToken.afterQuote quote cs).1
      (ValueToken.afterQuote quote cs).2 := by
  have hvalue : quote ∉ cs.takeWhile (· != quote) := fun hmem => by
    simpa using List.mem_takeWhile_imp hmem
  simp only [ValueToken.afterQuote]
  split
  · next hopen =>
      have hwhole := takeWhile_append_drop (· != quote) cs
      rw [List.isEmpty_iff.mp hopen, List.append_nil] at hwhole
      exact .unterminated hquote (hwhole ▸ hvalue)
  · next hclosed =>
      rcases drop_takeWhile_ne quote cs with hnil | ⟨rest, hrest⟩
      · simp [hnil] at hclosed
      · have hbegins := ValueToken.Begins.quoted rest hquote hvalue
        rwa [← hrest, takeWhile_append_drop] at hbegins

theorem ValueToken.begins {cs taken : List Char} {token : ValueToken}
    (h : ValueToken.first? cs = some (token, taken)) :
    ValueToken.Begins cs token taken := by
  revert h
  fun_cases ValueToken.first? cs with
  | case1 => simp
  | case2 rest => rintro ⟨⟩; exact .close rest
  | case3 cs =>
      intro h
      simpa [Option.some.inj h]
        using ValueToken.begins_afterQuote (Or.inl rfl) cs
  | case4 cs =>
      intro h
      simpa [Option.some.inj h]
        using ValueToken.begins_afterQuote (Or.inr rfl) cs
  | case5 x cs hclose hdouble hsingle =>
      intro h
      obtain ⟨rfl, rfl⟩ := Prod.mk.inj (Option.some.inj h)
      have hmore : ∀ y ∈ cs.takeWhile isBareValueChar,
          isBareValueChar y = true :=
        fun _ hy => List.mem_takeWhile_imp hy
      have hbegins :=
        ValueToken.Begins.bare (cs.drop (cs.takeWhile isBareValueChar).length)
        ⟨hclose, hdouble, hsingle⟩ hmore
      rwa [takeWhile_append_drop] at hbegins

theorem ValueToken.first?_isPrefix {cs taken : List Char} {token : ValueToken}
    (h : ValueToken.first? cs = some (token, taken)) : taken <+: cs := by
  cases ValueToken.begins h <;> simp

end MarkupTemplate
