/-
Scalars and keys of TOML as they are written, and that they are read back.  A
string stands between double quotes with any choice of escapes, a number in
decimal digits, and a key bare or between quotes.
-/
import MarkupTemplate.Toml.Document
import MarkupTemplate.Proofs.Token

namespace MarkupTemplate.Toml

/-! ## Strings -/

/-- Hexadecimal digits of a number, the last `width` of them. -/
def hexDigits : (width : Nat) → Nat → List Char
  | 0, _ => []
  | width + 1, n => hexDigits width (n / 16) ++ [Nat.digitChar (n % 16)]

/-- The letters that stand for characters behind a backslash. -/
def shortEscapes : List (Char × Char) :=
  [('b', '\x08'), ('t', '\t'), ('n', '\n'), ('f', '\x0c'), ('r', '\r'),
    ('"', '"'), ('\\', '\\')]

/-- How a character may be written between double quotes: as it is, unless it is
a quote, a backslash or a control character, or by one of its escapes. -/
inductive Written (c : Char) : List Char → Prop where
  | plain (hcontrol : 0x20 ≤ c.toNat ∧ c.toNat ≠ 0x7F) (hquote : c ≠ '"')
      (hbackslash : c ≠ '\\') : Written c [c]
  | short {letter : Char} (h : (letter, c) ∈ shortEscapes) :
      Written c ['\\', letter]
  | four {digits : List Char} (h : c.toNat < 16 ^ 4)
      (hdigits : digits.map Char.toLower = hexDigits 4 c.toNat) :
      Written c ('\\' :: 'u' :: digits)
  | eight {digits : List Char}
      (hdigits : digits.map Char.toLower = hexDigits 8 c.toNat) :
      Written c ('\\' :: 'U' :: digits)

theorem length_hexDigits (width n : Nat) :
    (hexDigits width n).length = width := by
  induction width generalizing n with
  | zero => rfl
  | succ width ih => simp [hexDigits, ih]

theorem hexValue?_digitChar {d : Nat} (h : d < 16) :
    hexValue? (Nat.digitChar d) = some d := by
  interval_cases d <;> rfl

theorem mapM_hexValue?_hexDigits (width n : Nat) :
    ∃ values, (hexDigits width n).mapM hexValue? = some values ∧
      values.foldl (fun n d => 16 * n + d) 0 = n % 16 ^ width := by
  induction width generalizing n with
  | zero => exact ⟨[], rfl, by simp [Nat.mod_one]⟩
  | succ width ih =>
      obtain ⟨values, hvalues, hfold⟩ := ih (n / 16)
      refine ⟨values ++ [n % 16], ?_, ?_⟩
      · simp [hexDigits, hvalues,
          hexValue?_digitChar (Nat.mod_lt n (by decide))]
      · rw [List.foldl_append, hfold, List.foldl_cons, List.foldl_nil,
          Nat.pow_succ', Nat.mod_mul]
        omega

theorem hexValue?_toLower (c : Char) : hexValue? c.toLower = hexValue? c := by
  by_cases hupper : c.isUpper = true
  · have hcode : c.toNat < 91 := by
      simp only [Char.isUpper, decide_eq_true_eq,
        UInt32.le_iff_toNat_le] at hupper
      exact Nat.lt_succ_of_le hupper.2
    have hall : ∀ n < 91, hexValue? (Char.ofNat n).toLower =
        hexValue? (Char.ofNat n) := by decide
    rw [← Char.ofNat_toNat c]
    exact hall c.toNat hcode
  · rw [Char.toLower_eq_of_not_isUpper hupper]

/-- The digits of a code point name its character, in letters of either case. -/
theorem hexChar?_of_map_toLower {width : Nat} {c : Char} {digits : List Char}
    (h : c.toNat < 16 ^ width)
    (hdigits : digits.map Char.toLower = hexDigits width c.toNat) :
    hexChar? digits = some c := by
  obtain ⟨values, hvalues, hfold⟩ := mapM_hexValue?_hexDigits width c.toNat
  have hvalues : digits.mapM hexValue? = some values := by
    rw [← hvalues, ← hdigits, List.mapM_map]
    simp only [Function.comp_def, hexValue?_toLower]
  have hscalar : scalar? c.toNat = some c := by
    have hvalid : c.toNat < 0xD800 ∨ (0xDFFF < c.toNat ∧ c.toNat < 0x110000) :=
      c.valid
    rw [scalar?, if_pos hvalid, Char.ofNat_toNat]
  simp [hexChar?, hvalues, hfold, Nat.mod_eq_of_lt h, hscalar]

theorem toNat_lt_sixteen_pow (c : Char) : c.toNat < 16 ^ 8 := by
  have hvalid : c.toNat < 0xD800 ∨ (0xDFFF < c.toNat ∧ c.toNat < 0x110000) :=
    c.valid
  omega

theorem escape?_four {digits : List Char} {c : Char}
    (hlength : digits.length = 4) (hread : hexChar? digits = some c)
    (rest : List Char) :
    escape? ('u' :: (digits ++ rest)) = some (c, rest) := by
  obtain ⟨d₁, d₂, d₃, d₄, rfl⟩ := List.length_eq_four.mp hlength
  simp [escape?, hread]

theorem escape?_eight {digits : List Char} {c : Char}
    (hlength : digits.length = 8) (hread : hexChar? digits = some c)
    (rest : List Char) :
    escape? ('U' :: (digits ++ rest)) = some (c, rest) := by
  have htake : (digits.take 4).length = 4 := by simp [hlength]
  have hdrop : (digits.drop 4).length = 4 := by simp [hlength]
  obtain ⟨d₁, d₂, d₃, d₄, hfirst⟩ := List.length_eq_four.mp htake
  obtain ⟨d₅, d₆, d₇, d₈, hlast⟩ := List.length_eq_four.mp hdrop
  have hdigits : digits = [d₁, d₂, d₃, d₄, d₅, d₆, d₇, d₈] := by
    rw [← List.take_append_drop 4 digits, hfirst, hlast]
    rfl
  rw [hdigits] at hread ⊢
  simp [escape?, hread]

theorem basicString?_of_escape {c : Char} {cs rest : List Char}
    (hescape : escape? cs = some (c, rest))
    (hlength : rest.length ≤ cs.length) :
    basicString? ('\\' :: cs) = (basicString? rest).map fun (text, rest) =>
      (c :: text, rest) := by
  rw [basicString?, hescape]
  simp only [hlength, if_true]
  cases basicString? rest <;> rfl

theorem basicString?_written {c : Char} {text : List Char} (h : Written c text)
    (rest : List Char) :
    basicString? (text ++ rest) =
      (basicString? rest).map fun (text, rest) => (c :: text, rest) := by
  cases h with
  | plain hcontrol hquote hbackslash =>
      have hbasic : isBasicChar c = true := by
        simp [isBasicChar, isCommentChar, hcontrol, hquote, hbackslash]
      rw [List.singleton_append, basicString?]
      · rw [if_pos hbasic]
        cases basicString? rest <;> rfl
      · exact hquote
      · exact hbackslash
  | @short letter h =>
      apply basicString?_of_escape
      · simp only [shortEscapes, List.mem_cons, List.not_mem_nil, or_false,
          Prod.mk.injEq] at h
        rcases h with ⟨rfl, rfl⟩ | ⟨rfl, rfl⟩ | ⟨rfl, rfl⟩ | ⟨rfl, rfl⟩ |
          ⟨rfl, rfl⟩ | ⟨rfl, rfl⟩ | ⟨rfl, rfl⟩ <;> rfl
      · simp
  | four h hdigits =>
      have hlength := congrArg List.length hdigits
      rw [List.length_map, length_hexDigits] at hlength
      apply basicString?_of_escape
        (escape?_four hlength (hexChar?_of_map_toLower h hdigits) rest)
      rw [List.length_cons, List.length_append]
      omega
  | eight hdigits =>
      have hlength := congrArg List.length hdigits
      rw [List.length_map, length_hexDigits] at hlength
      apply basicString?_of_escape
        (escape?_eight hlength
          (hexChar?_of_map_toLower (toNat_lt_sixteen_pow c) hdigits) rest)
      rw [List.length_cons, List.length_append]
      omega

structure Escaping where
  write : Char → List Char
  written : ∀ c, Written c (write c)

theorem map_toLower_hexDigits (width n : Nat) :
    (hexDigits width n).map Char.toLower = hexDigits width n := by
  have hdigit : ∀ d < 16, (Nat.digitChar d).toLower = Nat.digitChar d := by
    decide
  induction width generalizing n with
  | zero => rfl
  | succ width ih =>
      simp [hexDigits, ih, hdigit (n % 16) (Nat.mod_lt n (by decide))]

/-- Only what has to be escaped is escaped. -/
def Escaping.standard : Escaping where
  write c :=
    if (0x20 ≤ c.toNat ∧ c.toNat ≠ 0x7F) ∧ c ≠ '"' ∧ c ≠ '\\' then [c]
    else '\\' :: 'u' :: hexDigits 4 c.toNat
  written c := by
    split
    · next h => exact .plain h.1 h.2.1 h.2.2
    · next h =>
        refine .four ?_ (map_toLower_hexDigits 4 c.toNat)
        by_contra hlarge
        have hquote : c ≠ '"' := by
          rintro rfl
          exact hlarge (by decide)
        have hbackslash : c ≠ '\\' := by
          rintro rfl
          exact hlarge (by decide)
        exact h ⟨by omega, hquote, hbackslash⟩

def Escaping.quote (e : Escaping) (text : List Char) : List Char :=
  '"' :: (text.flatMap e.write ++ ['"'])

theorem basicString?_quote (e : Escaping) (text rest : List Char) :
    basicString? (text.flatMap e.write ++ '"' :: rest) = some (text, rest) := by
  induction text with
  | nil => rw [List.flatMap_nil, List.nil_append, basicString?]
  | cons c text ih =>
      rw [List.flatMap_cons, List.append_assoc,
        basicString?_written (e.written c), ih]
      rfl

theorem literalString?_plain {text : List Char}
    (h : ∀ c ∈ text, isLiteralChar c = true) (rest : List Char) :
    literalString? (text ++ '\'' :: rest) = some (text, rest) := by
  induction text with
  | nil => rfl
  | cons c text ih =>
      have hc := h c List.mem_cons_self
      have hquote : c ≠ '\'' := by
        rintro rfl
        exact absurd hc (by decide)
      rw [List.cons_append, literalString?]
      · simp [hc, ih fun d hd => h d (List.mem_cons_of_mem _ hd)]
      · exact hquote

/-! ## Numbers -/

/-- What is not a digit is not taken for one. -/
theorem ne_of_isDigit {c d : Char} (hc : c.isDigit = true)
    (hd : d.isDigit = false) : c ≠ d := by
  rintro rfl
  simp [hd] at hc

theorem twoDigits?_eq_some {low high n : Nat} {cs rest : List Char}
    (h : twoDigits? low high cs = some (n, rest)) :
    ∃ front, (∀ c ∈ front, c.isDigit = true) ∧ cs = front ++ rest := by
  rcases cs with _ | ⟨a, _ | ⟨b, cs⟩⟩
  · contradiction
  · contradiction
  · simp only [twoDigits?, Option.ite_none_right_eq_some, Bool.and_eq_true,
      Option.some.injEq, Prod.mk.injEq] at h
    obtain ⟨⟨⟨⟨ha, hb⟩, _⟩, _⟩, _, rfl⟩ := h
    exact ⟨[a, b], by simp [ha, hb], rfl⟩

section

variable {digits : List Char} (hdigits : ∀ c ∈ digits, c.isDigit = true)
  (rest : List Char)

include hdigits

theorem moreDigits?_line :
    moreDigits? Char.isDigit (digits ++ '\n' :: rest) =
      some (digits, '\n' :: rest) := by
  induction digits with
  | nil => simp [moreDigits?]
  | cons c digits ih =>
      have hc := hdigits c List.mem_cons_self
      have hmore := ih fun d hd => hdigits d (List.mem_cons_of_mem _ hd)
      have hunderscore : c ≠ '_' := ne_of_isDigit hc rfl
      rw [List.cons_append, moreDigits?]
      · simp [hc, hmore]
      · simp
      · simp [hunderscore]

/-- Digits at the front of a line of digits are among its digits. -/
theorem exists_more_digits {front back : List Char}
    (hfront : ∀ c ∈ front, c.isDigit = true)
    (h : digits ++ '\n' :: rest = front ++ back) :
    ∃ more, (∀ c ∈ more, c.isDigit = true) ∧ back = more ++ '\n' :: rest := by
  induction front generalizing digits with
  | nil => exact ⟨digits, hdigits, h.symm⟩
  | cons c front ih =>
      cases digits with
      | nil =>
          rw [List.nil_append, List.cons_append, List.cons.injEq] at h
          have hc := hfront c List.mem_cons_self
          rw [← h.1] at hc
          exact absurd hc (by decide)
      | cons d digits =>
          rw [List.cons_append, List.cons_append, List.cons.injEq] at h
          exact ih (fun c hc => hdigits c (List.mem_cons_of_mem _ hc))
            (fun c hc => hfront c (List.mem_cons_of_mem _ hc)) h.2

theorem expect?_line {c : Char} (hc : c.isDigit = false) (hnewline : c ≠ '\n') :
    expect? c (digits ++ '\n' :: rest) = none := by
  cases digits with
  | nil => simp [expect?, hnewline]
  | cons d digits =>
      have hd : d ≠ c := ne_of_isDigit (hdigits d List.mem_cons_self) hc
      simp [expect?, hd.symm]

theorem date?_line : date? (digits ++ '\n' :: rest) = none := by
  unfold date?
  split
  · next a b c d cs h =>
      split
      · next hall =>
          have hfront : ∀ x ∈ [a, b, c, d], x.isDigit = true := by
            simpa using hall
          obtain ⟨more, hmore, rfl⟩ := exists_more_digits hdigits rest hfront h
          rw [expect?_line hmore rest rfl (by decide)]
          rfl
      · rfl
  · rfl

theorem time?_line : time? (digits ++ '\n' :: rest) = none := by
  cases hread : twoDigits? 0 23 (digits ++ '\n' :: rest) with
  | none => simp [time?, hread]
  | some found =>
      obtain ⟨n, behind⟩ := found
      obtain ⟨front, hfront, h⟩ := twoDigits?_eq_some hread
      obtain ⟨more, hmore, rfl⟩ := exists_more_digits hdigits rest hfront h
      simp only [time?, hread, Option.bind_eq_bind, Option.bind_some]
      rw [expect?_line hmore rest rfl (by decide)]
      rfl

theorem datetime?_line : datetime? (digits ++ '\n' :: rest) = none := by
  rw [datetime?, date?_line hdigits, time?_line hdigits]
  rfl

end

/-- A number other than zero does not begin with a zero. -/
theorem head_toDigits {n : Nat} (hn : 0 < n) :
    ∀ c ∈ (Nat.toDigits 10 n).head?, c ≠ '0' := by
  induction n using Nat.strongRecOn with
  | ind n ih =>
      rw [Nat.toDigits_eq_if (by decide)]
      split
      · next hsmall =>
          intro c hc
          simp only [List.head?_cons, Option.mem_some_iff] at hc
          rw [← hc]
          interval_cases n <;> decide
      · next hlarge =>
          rw [List.head?_append_of_ne_nil _ Nat.toDigits_ne_nil]
          exact ih (n / 10) (by omega) (by omega)

theorem decimal?_toDigits (n : Nat) (rest : List Char) :
    decimal? (Nat.toDigits 10 n ++ '\n' :: rest) =
      some (Nat.toDigits 10 n, '\n' :: rest) := by
  rcases Nat.eq_zero_or_pos n with rfl | hn
  · rfl
  · have hhead := head_toDigits hn
    have hdigits := isDigit_of_mem_digits (n := n)
    cases hspelled : Nat.toDigits 10 n with
    | nil => exact absurd hspelled Nat.toDigits_ne_nil
    | cons c cs =>
        rw [hspelled] at hhead hdigits
        have hc := hdigits c List.mem_cons_self
        have hmore :=
          moreDigits?_line (fun d hd =>
            hdigits d (List.mem_cons_of_mem _ hd)) rest
        rw [List.cons_append, decimal?]
        · simp [digits?, hc, hmore]
        · exact fun _ h => hhead c rfl (List.cons.inj h).1

theorem digitsValue_toDigits (n : Nat) :
    digitsValue 10 (Nat.toDigits 10 n) = n := by
  have hvalue : ∀ c : Char, c.isDigit = true →
      (hexValue? c).getD 0 = c.toNat - '0'.toNat := by
    intro c hc
    simp [hexValue?, hc]
  have hfold : digitsValue 10 (Nat.toDigits 10 n) =
      Nat.ofDigitChars 10 (Nat.toDigits 10 n) 0 := by
    apply List.foldl_ext
    intro m c hc
    rw [hvalue c (isDigit_of_mem_digits c hc)]
  rw [hfold, Nat.ofDigitChars_toDigits (by decide) (by decide)]

/-- The digits of a number, as a first one and the rest. -/
theorem exists_toDigits (n : Nat) :
    ∃ c cs, Nat.toDigits 10 n = c :: cs ∧ c.isDigit = true ∧
      (c = '0' → cs = []) := by
  cases hspelled : Nat.toDigits 10 n with
  | nil => exact absurd hspelled Nat.toDigits_ne_nil
  | cons c cs =>
      refine ⟨c, cs, rfl,
        isDigit_of_mem_digits c (by rw [hspelled]; exact List.mem_cons_self),
        ?_⟩
      intro hzero
      rcases Nat.eq_zero_or_pos n with rfl | hn
      · exact (List.cons.inj hspelled).2.symm
      · exact absurd hzero (head_toDigits hn c (by rw [hspelled]; rfl))

theorem sign_of_digit {c : Char} (hc : c.isDigit = true) (cs : List Char) :
    sign (c :: cs) = (false, c :: cs) := by
  have hminus : c ≠ '-' := ne_of_isDigit hc rfl
  have hplus : c ≠ '+' := ne_of_isDigit hc rfl
  simp [sign, hminus, hplus]

theorem float?_toDigits (n : Nat) (rest : List Char) :
    float? (Nat.toDigits 10 n ++ '\n' :: rest) = none := by
  have hdecimal := decimal?_toDigits n rest
  obtain ⟨c, cs, hspelled, hc, _⟩ := exists_toDigits n
  have hinf : c ≠ 'i' := ne_of_isDigit hc rfl
  have hnan : c ≠ 'n' := ne_of_isDigit hc rfl
  rw [hspelled, List.cons_append] at hdecimal ⊢
  simp only [float?, sign_of_digit hc]
  simp [hinf, hnan, hdecimal, floatTail?, exponent?]

theorem integer?_toDigits {n : Nat} (hn : n < integerBound) (rest : List Char) :
    integer? (Nat.toDigits 10 n ++ '\n' :: rest) =
      some (.integer n, '\n' :: rest) := by
  have hdecimal := decimal?_toDigits n rest
  have hvalue := digitsValue_toDigits n
  obtain ⟨c, cs, hspelled, hc, hzero⟩ := exists_toDigits n
  rw [hspelled] at hvalue hdecimal ⊢
  rw [List.cons_append] at hdecimal ⊢
  -- a zero at the front stands alone, so it marks no other base
  have hbase : ∀ d more, d ≠ '\n' →
      c :: (cs ++ '\n' :: rest) ≠ '0' :: d :: more := by
    intro d more hd h
    obtain ⟨hfirst, hsecond⟩ := List.cons.inj h
    rw [hzero hfirst] at hsecond
    exact hd (List.cons.inj hsecond).1.symm
  rw [integer?]
  · simp [sign_of_digit hc, hdecimal, hvalue, hn]
  · exact fun more => hbase 'x' more (by decide)
  · exact fun more => hbase 'o' more (by decide)
  · exact fun more => hbase 'b' more (by decide)

theorem scalarItem?_toDigits {n : Nat} (hn : n < integerBound)
    (rest : List Char) :
    scalarItem? (Nat.toDigits 10 n ++ '\n' :: rest) =
      some (.integer n, '\n' :: rest) := by
  have hdatetime : datetime? (Nat.toDigits 10 n ++ '\n' :: rest) = none :=
    datetime?_line isDigit_of_mem_digits rest
  have hfloat := float?_toDigits n rest
  have hinteger := integer?_toDigits hn rest
  obtain ⟨c, cs, hspelled, hc, _⟩ := exists_toDigits n
  rw [hspelled, List.cons_append] at hdatetime hfloat hinteger ⊢
  have hother : ∀ d : Char, d.isDigit = false →
      ∀ more, c :: (cs ++ '\n' :: rest) ≠ d :: more :=
    fun d hd more h => ne_of_isDigit hc hd (List.cons.inj h).1
  rw [scalarItem?]
  · simp [hdatetime, hfloat, hinteger]
  · exact fun more => hother 't' rfl _
  · exact fun more => hother 'f' rfl _
  · exact fun more => hother '"' rfl _
  · exact fun more => hother '\'' rfl _

/-! ## Scalars -/

/-- A value that is written on one line. -/
inductive Scalar where
  | boolean (value : Bool)
  | string (value : String)
  | integer (value : Fin integerBound)

namespace Scalar

def item : Scalar → Item
  | boolean value => .boolean value
  | string value => .string value
  | integer value => .integer value.val

def text (e : Escaping) : Scalar → List Char
  | boolean true => ['t', 'r', 'u', 'e']
  | boolean false => ['f', 'a', 'l', 's', 'e']
  | string value => e.quote value.toList
  | integer value => Nat.toDigits 10 value.val

end Scalar

/-- A character does not begin with a quote where it is written. -/
theorem Written.head_ne_quote {c : Char} {text : List Char}
    (h : Written c text) :
    ∀ x ∈ text.head?, x ≠ '"' := by
  cases h <;> simp_all

/-- A string that ends its line is not taken for one of several lines. -/
theorem string?_quote (e : Escaping) (text rest : List Char) :
    string? (e.quote text ++ '\n' :: rest) = some (text, '\n' :: rest) := by
  have hread := basicString?_quote e text ('\n' :: rest)
  rw [Escaping.quote, List.cons_append, List.append_assoc,
    List.singleton_append]
  rw [string?, hread]
  intro more h
  cases text with
  | nil => simp at h
  | cons c text =>
      have hhead := (e.written c).head_ne_quote
      cases hwrite : e.write c with
      | nil =>
          have hwritten := e.written c
          rw [hwrite] at hwritten
          cases hwritten
      | cons x xs =>
          rw [hwrite] at hhead
          rw [List.flatMap_cons, hwrite, List.cons_append,
            List.cons_append] at h
          exact hhead x rfl (List.cons.inj h).1

theorem scalarItem?_text (e : Escaping) (value : Scalar) (rest : List Char) :
    scalarItem? (value.text e ++ '\n' :: rest) =
      some (value.item, '\n' :: rest) := by
  cases value with
  | boolean value => cases value <;> rfl
  | string value =>
      have hread := string?_quote e value.toList rest
      simp only [Escaping.quote, List.cons_append, List.append_assoc,
        List.nil_append] at hread
      simp [Scalar.text, Escaping.quote, scalarItem?, hread, Scalar.item]
  | integer value => exact scalarItem?_toDigits value.isLt rest

/-- How the text of a scalar begins. -/
theorem Scalar.head_text (e : Escaping) (value : Scalar) :
    ∃ c cs, value.text e = c :: cs ∧ c ≠ '[' ∧ c ≠ '{' ∧ isWs c = false := by
  cases value with
  | boolean value => cases value <;> exact ⟨_, _, rfl, by decide⟩
  | string value => exact ⟨_, _, rfl, by decide⟩
  | integer value =>
      obtain ⟨c, cs, hspelled, hc, _⟩ := exists_toDigits value.val
      refine ⟨c, cs, hspelled, ne_of_isDigit hc rfl, ne_of_isDigit hc rfl, ?_⟩
      have hblank : c ≠ ' ' := ne_of_isDigit hc rfl
      have htab : c ≠ '\t' := ne_of_isDigit hc rfl
      simp [isWs, hblank, htab]

theorem item?_text (e : Escaping) (levels : Nat) (value : Scalar)
    (rest : List Char) :
    item? levels (value.text e ++ '\n' :: rest) =
      some (value.item, '\n' :: rest) := by
  have hread := scalarItem?_text e value rest
  obtain ⟨c, cs, htext, hbracket, hbrace, _⟩ := value.head_text e
  rw [htext, List.cons_append] at hread ⊢
  rw [item?, hread]
  · exact fun _ more _ h => hbracket (List.cons.inj h).1
  · exact fun _ more _ h => hbrace (List.cons.inj h).1

/-! ## Keys -/

/-- How a key may be spelled: bare, or as a string between quotes of either
kind. -/
inductive KeySpelled (key : String) : List Char → Prop where
  | bare (hne : key.toList ≠ [])
      (h : ∀ c ∈ key.toList, isBareKeyChar c = true) : KeySpelled key key.toList
  | quoted (e : Escaping) : KeySpelled key (e.quote key.toList)
  | literal (h : ∀ c ∈ key.toList, isLiteralChar c = true) :
      KeySpelled key ('\'' :: (key.toList ++ ['\'']))

/-- A key with blanks around it. -/
inductive KeyText (key : String) : List Char → Prop where
  | mk {left spelled right : List Char} (hleft : ∀ c ∈ left, isWs c = true)
      (hspelled : KeySpelled key spelled)
      (hright : ∀ c ∈ right, isWs c = true) :
      KeyText key (left ++ (spelled ++ right))

theorem skipWs_append {blanks rest : List Char}
    (hblanks : ∀ c ∈ blanks, isWs c = true)
    (hrest : ∀ c ∈ rest.head?, isWs c = false) :
    skipWs (blanks ++ rest) = rest := by
  rw [skipWs, List.dropWhile_append_of_pos hblanks]
  cases rest with
  | nil => rfl
  | cons c rest => simp [hrest c rfl]

theorem isBareKeyChar_of_isWs {c : Char} (h : isWs c = true) :
    isBareKeyChar c = false := by
  simp only [isWs, Bool.or_eq_true, beq_iff_eq] at h
  rcases h with rfl | rfl <;> rfl

/-- The characters that are taken for a blank, the end of a line, a comment, a
header or a byte order mark where a line begins.  No key begins with one. -/
def lineMarks : List Char :=
  [' ', '\t', '\n', '\r', '#', '[', '\ufeff']

namespace KeySpelled

variable {key : String} {text : List Char}

theorem exists_head (h : KeySpelled key text) :
    ∃ c cs, text = c :: cs ∧ c ∉ lineMarks := by
  cases h with
  | bare hne h =>
      cases hkey : key.toList with
      | nil => exact absurd hkey hne
      | cons c cs =>
          have hc := h c (by rw [hkey]; exact List.mem_cons_self)
          have hnone : ∀ d ∈ lineMarks, isBareKeyChar d = false := by
            simp [lineMarks, isBareKeyChar]
          refine ⟨c, cs, rfl, fun hmem => ?_⟩
          rw [hnone c hmem] at hc
          contradiction
  | quoted e => exact ⟨_, _, rfl, by decide⟩
  | literal h => exact ⟨_, _, rfl, by decide⟩

theorem simpleKey?_eq (h : KeySpelled key text) {rest : List Char}
    (hrest : ∀ c ∈ rest.head?, isBareKeyChar c = false) :
    simpleKey? (text ++ rest) = some (key, rest) := by
  cases h with
  | bare hne h =>
      have htake := takeWhile_run h hrest
      cases hkey : key.toList with
      | nil => exact absurd hkey hne
      | cons c cs =>
          rw [hkey] at htake h
          have hc := h c List.mem_cons_self
          have hwhole : String.ofList (c :: cs) = key := by
            rw [← hkey, String.ofList_toList]
          rw [List.cons_append] at htake ⊢
          rw [simpleKey?]
          · simp [htake, hwhole]
          · rintro _ h
            rw [(List.cons.inj h).1] at hc
            exact absurd hc (by decide)
          · rintro _ h
            rw [(List.cons.inj h).1] at hc
            exact absurd hc (by decide)
  | quoted e =>
      rw [Escaping.quote, List.cons_append, List.append_assoc,
        List.singleton_append]
      simp [simpleKey?, basicString?_quote]
  | literal h =>
      rw [List.cons_append, List.append_assoc, List.singleton_append]
      simp [simpleKey?, literalString?_plain h]

end KeySpelled

/-- A key is read up to what ends it in a pair or in a header. -/
theorem KeyText.key?_eq {key : String} {text rest : List Char} {c : Char}
    (h : KeyText key text) (hc : c ∈ ['=', ']']) :
    key? (text ++ c :: rest) = some (([], key), c :: rest) := by
  have hblank : isWs c = false ∧ isBareKeyChar c = false ∧ c ≠ '.' := by
    simp only [List.mem_cons, List.not_mem_nil, or_false] at hc
    rcases hc with rfl | rfl <;> decide
  cases h with
  | @mk left spelled right hleft hspelled hright =>
      obtain ⟨x, xs, hx, hhead⟩ := hspelled.exists_head
      have hskip : skipWs (left ++ (spelled ++ right) ++ c :: rest) =
          spelled ++ (right ++ c :: rest) := by
        rw [List.append_assoc, List.append_assoc]
        apply skipWs_append hleft
        simp_all [isWs, lineMarks]
      have hread : simpleKey? (spelled ++ (right ++ c :: rest)) =
          some (key, right ++ c :: rest) := by
        apply hspelled.simpleKey?_eq
        cases right with
        | nil => simpa using hblank.2.1
        | cons d right =>
            simpa using isBareKeyChar_of_isWs (hright d List.mem_cons_self)
      have hbehind : skipWs (right ++ c :: rest) = c :: rest :=
        skipWs_append hright (by simpa using hblank.1)
      have hparts : keyParts? (left ++ (spelled ++ right) ++ c :: rest) =
          some ([key], c :: rest) := by
        rw [keyParts?, hskip, hread]
        simp [hbehind, hblank.2.2]
      rw [key?, hparts]
      rfl

end MarkupTemplate.Toml
