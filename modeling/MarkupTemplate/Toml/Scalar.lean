/-
Strings, numbers, dates and keys of TOML.  Every reader takes its text off the
front of the characters and gives back the rest; a text that is not well formed
is refused.
-/
import MarkupTemplate.Toml.Item

namespace MarkupTemplate.Toml

def isWs (c : Char) : Bool := c == ' ' || c == '\t'

def skipWs (cs : List Char) : List Char := cs.dropWhile isWs

/-- Characters of a comment.  Of the control characters only the tab is one. -/
def isCommentChar (c : Char) : Bool :=
  c == '\t' || (0x20 ≤ c.toNat && c.toNat != 0x7F)

/-- Characters that stand for themselves between double quotes. -/
def isBasicChar (c : Char) : Bool :=
  isCommentChar c && c != '"' && c != '\\'

/-- Characters that stand for themselves between single quotes. -/
def isLiteralChar (c : Char) : Bool :=
  isCommentChar c && c != '\''

/-! ## Strings -/

def hexValue? (c : Char) : Option Nat :=
  if c.isDigit then some (c.toNat - '0'.toNat)
  else if 'a' ≤ c ∧ c ≤ 'f' then some (c.toNat - 'a'.toNat + 10)
  else if 'A' ≤ c ∧ c ≤ 'F' then some (c.toNat - 'A'.toNat + 10)
  else none

/-- The character with that code point, unless it is a surrogate or too
large. -/
def scalar? (n : Nat) : Option Char :=
  if n < 0xD800 ∨ (0xDFFF < n ∧ n < 0x110000) then some (Char.ofNat n) else none

/-- The character that hexadecimal digits name. -/
def hexChar? (digits : List Char) : Option Char := do
  let values ← digits.mapM hexValue?
  scalar? (values.foldl (fun n d => 16 * n + d) 0)

/-- The character that a letter behind a backslash stands for. -/
def escapeChar? : Char → Option Char
  | 'b' => some '\x08'
  | 't' => some '\t'
  | 'n' => some '\n'
  | 'f' => some '\x0c'
  | 'r' => some '\r'
  | '"' => some '"'
  | '\\' => some '\\'
  | _ => none

/-- The characters behind a backslash: what they stand for, and the rest. -/
def escape? : List Char → Option (Char × List Char)
  | 'u' :: a :: b :: c :: d :: cs => do some (← hexChar? [a, b, c, d], cs)
  | 'U' :: a :: b :: c :: d :: e :: f :: g :: h :: cs => do
      some (← hexChar? [a, b, c, d, e, f, g, h], cs)
  | c :: cs => do some (← escapeChar? c, cs)
  | [] => none

/-- The text up to the closing double quote, and the rest. -/
def basicString? (cs : List Char) : Option (List Char × List Char) :=
  match cs with
  | [] => none
  | '"' :: cs => some ([], cs)
  | '\\' :: cs =>
      match escape? cs with
      | none => none
      | some (c, rest) =>
          if rest.length ≤ cs.length then do
            let (text, rest) ← basicString? rest
            some (c :: text, rest)
          else none
  | c :: cs =>
      if isBasicChar c then do
        let (text, rest) ← basicString? cs
        some (c :: text, rest)
      else none
termination_by cs.length

/-- The text up to the closing single quote, and the rest. -/
def literalString? : List Char → Option (List Char × List Char)
  | [] => none
  | '\'' :: cs => some ([], cs)
  | c :: cs =>
      if isLiteralChar c then do
        let (text, rest) ← literalString? cs
        some (c :: text, rest)
      else none

/-- Whether a line ends here, blanks aside. -/
def endsLine (cs : List Char) : Bool :=
  match skipWs cs with
  | '\n' :: _ => true
  | '\r' :: '\n' :: _ => true
  | _ => false

/-- The text of a string between three double quotes, and the rest.  Up to two
quotes may stand right before the closing ones.  `joining` says that a
backslash ended the line, so blanks and line ends are passed over. -/
def multiLineBasic? (joining : Bool) (cs : List Char) :
    Option (List Char × List Char) :=
  match cs with
  | [] => none
  | '"' :: '"' :: '"' :: '"' :: '"' :: cs => some (['"', '"'], cs)
  | '"' :: '"' :: '"' :: '"' :: cs => some (['"'], cs)
  | '"' :: '"' :: '"' :: cs => some ([], cs)
  | '"' :: cs => do
      let (text, rest) ← multiLineBasic? false cs
      some ('"' :: text, rest)
  | '\\' :: cs =>
      if endsLine cs then multiLineBasic? true cs
      else
        match escape? cs with
        | none => none
        | some (c, rest) =>
            if rest.length ≤ cs.length then do
              let (text, rest) ← multiLineBasic? false rest
              some (c :: text, rest)
            else none
  | '\r' :: '\n' :: cs => do
      let (text, rest) ← multiLineBasic? joining cs
      some (if joining then text else '\n' :: text, rest)
  | '\n' :: cs => do
      let (text, rest) ← multiLineBasic? joining cs
      some (if joining then text else '\n' :: text, rest)
  | c :: cs =>
      if joining && isWs c then multiLineBasic? true cs
      else if isBasicChar c then do
        let (text, rest) ← multiLineBasic? false cs
        some (c :: text, rest)
      else none
termination_by cs.length

/-- The text of a string between three single quotes, and the rest. -/
def multiLineLiteral? : List Char → Option (List Char × List Char)
  | [] => none
  | '\'' :: '\'' :: '\'' :: '\'' :: '\'' :: cs => some (['\'', '\''], cs)
  | '\'' :: '\'' :: '\'' :: '\'' :: cs => some (['\''], cs)
  | '\'' :: '\'' :: '\'' :: cs => some ([], cs)
  | '\r' :: '\n' :: cs => do
      let (text, rest) ← multiLineLiteral? cs
      some ('\n' :: text, rest)
  | '\n' :: cs => do
      let (text, rest) ← multiLineLiteral? cs
      some ('\n' :: text, rest)
  | c :: cs =>
      if c == '\'' || isLiteralChar c then do
        let (text, rest) ← multiLineLiteral? cs
        some (c :: text, rest)
      else none

/-- The text behind a line end, if one comes first. -/
def dropLineEnd : List Char → List Char
  | '\r' :: '\n' :: cs => cs
  | '\n' :: cs => cs
  | cs => cs

def string? : List Char → Option (List Char × List Char)
  | '"' :: '"' :: '"' :: cs => multiLineBasic? false (dropLineEnd cs)
  | '"' :: cs => basicString? cs
  | '\'' :: '\'' :: '\'' :: cs => multiLineLiteral? (dropLineEnd cs)
  | '\'' :: cs => literalString? cs
  | _ => none

/-! ## Numbers -/

/-- Digits, single underscores between them passed over. -/
def moreDigits? (isDigit : Char → Bool) :
    List Char → Option (List Char × List Char)
  | [] => some ([], [])
  | ['_'] => none
  | '_' :: c :: cs =>
      if isDigit c then do
        let (digits, rest) ← moreDigits? isDigit cs
        some (c :: digits, rest)
      else none
  | c :: cs =>
      if isDigit c then do
        let (digits, rest) ← moreDigits? isDigit cs
        some (c :: digits, rest)
      else some ([], c :: cs)

def digits? (isDigit : Char → Bool) : List Char → Option (List Char × List Char)
  | c :: cs =>
      if isDigit c then do
        let (digits, rest) ← moreDigits? isDigit cs
        some (c :: digits, rest)
      else none
  | [] => none

/-- Digits that do not begin with a needless zero. -/
def decimal? : List Char → Option (List Char × List Char)
  | '0' :: cs => some (['0'], cs)
  | cs => digits? Char.isDigit cs

/-- The number that digits of a base spell. -/
def digitsValue (base : Nat) (digits : List Char) : Nat :=
  digits.foldl (fun n c => base * n + (hexValue? c).getD 0) 0

/-- A sign, which may be missing: whether it is a minus, and the rest. -/
def sign : List Char → Bool × List Char
  | '-' :: cs => (true, cs)
  | '+' :: cs => (false, cs)
  | cs => (false, cs)

/-- The least number that is too large for an integer. -/
def integerBound : Nat := Nat.pow 2 63

def isOctal (c : Char) : Bool := '0' ≤ c && c ≤ '7'

def isBinary (c : Char) : Bool := c == '0' || c == '1'

def based? (base : Nat) (isDigit : Char → Bool) (cs : List Char) :
    Option (Item × List Char) := do
  let (digits, rest) ← digits? isDigit cs
  let n := digitsValue base digits
  if n < integerBound then some (.integer n, rest) else none

/-- An integer: decimal with an optional sign, or with the mark of another
base. -/
def integer? : List Char → Option (Item × List Char)
  | '0' :: 'x' :: cs => based? 16 (fun c => (hexValue? c).isSome) cs
  | '0' :: 'o' :: cs => based? 8 isOctal cs
  | '0' :: 'b' :: cs => based? 2 isBinary cs
  | cs => do
      let (negative, cs) := sign cs
      let (digits, rest) ← decimal? cs
      let n := digitsValue 10 digits
      if negative then
        if n ≤ integerBound then some (.integer (-n), rest) else none
      else if n < integerBound then some (.integer n, rest)
      else none

/-- The parts of a float: the digits of its significand, how many of them stand
behind the point, and the exponent. -/
structure FloatParts where
  digits : List Char
  places : Nat
  exponent : Int
  deriving Repr, DecidableEq

/-- The least positive number that is nearer to infinity than to a double. -/
def floatBound : Nat := Nat.pow 2 1024 - Nat.pow 2 970

/-- Whether the value of a float is out of reach of doubles.  Only numbers whose
size is close to the bound are worked out. -/
def FloatParts.overflows (p : FloatParts) : Bool :=
  let n := digitsValue 10 p.digits
  let scale := p.exponent - p.places
  let size := (Nat.toDigits 10 n).length + scale
  if n = 0 then false
  else if 310 < size then true
  else if size < 308 then false
  else if 0 ≤ scale then floatBound ≤ n * Nat.pow 10 scale.toNat
  else floatBound * Nat.pow 10 (-scale).toNat ≤ n

def exponent? : List Char → Option (Int × List Char)
  | c :: cs =>
      if c == 'e' || c == 'E' then do
        let (negative, cs) := sign cs
        let (digits, rest) ← digits? Char.isDigit cs
        let n : Int := digitsValue 10 digits
        some (if negative then -n else n, rest)
      else none
  | [] => none

/-- What follows the whole part of a float: a fraction, an exponent or both. -/
def floatTail? (whole : List Char) : List Char → Option (FloatParts × List Char)
  | '.' :: cs => do
      let (fraction, rest) ← digits? Char.isDigit cs
      match exponent? rest with
      | some (exponent, rest) =>
          some (⟨whole ++ fraction, fraction.length, exponent⟩, rest)
      | none => some (⟨whole ++ fraction, fraction.length, 0⟩, rest)
  | cs => do
      let (exponent, rest) ← exponent? cs
      some (⟨whole, 0, exponent⟩, rest)

/-- The characters of `cs` in front of `rest`. -/
def taken (cs rest : List Char) : String :=
  String.ofList (cs.take (cs.length - rest.length))

/-- A float.  One that is too large is refused, one that is too small is not. -/
def float? (cs : List Char) : Option (Item × List Char) :=
  let (negative, body) := sign cs
  match body with
  | 'i' :: 'n' :: 'f' :: rest => some (.float (taken cs rest), rest)
  | 'n' :: 'a' :: 'n' :: rest => some (.float (taken cs rest), rest)
  | _ => do
      let (whole, rest) ← decimal? body
      let (parts, rest) ← floatTail? whole rest
      if !negative && parts.overflows then none
      else some (.float (taken cs rest), rest)

/-! ## Dates and times -/

/-- A number of two digits within bounds. -/
def twoDigits? (low high : Nat) : List Char → Option (Nat × List Char)
  | a :: b :: cs =>
      let n := digitsValue 10 [a, b]
      if a.isDigit && b.isDigit && low ≤ n && n ≤ high then some (n, cs)
      else none
  | _ => none

def daysOfMonth (year month : Nat) : Nat :=
  if month = 2 then
    if year % 4 = 0 ∧ (year % 100 ≠ 0 ∨ year % 400 = 0) then 29 else 28
  else if month = 4 ∨ month = 6 ∨ month = 9 ∨ month = 11 then 30
  else 31

/-- The rest behind a character. -/
def expect? (c : Char) : List Char → Option (List Char)
  | d :: cs => if c == d then some cs else none
  | [] => none

def date? : List Char → Option (List Char)
  | a :: b :: c :: d :: cs =>
      if [a, b, c, d].all Char.isDigit then do
        let cs ← expect? '-' cs
        let (month, cs) ← twoDigits? 1 12 cs
        let cs ← expect? '-' cs
        let days := daysOfMonth (digitsValue 10 [a, b, c, d]) month
        let (_, cs) ← twoDigits? 1 days cs
        some cs
      else none
  | _ => none

/-- The rest behind a fraction of a second, which may be missing. -/
def secondFraction : List Char → List Char
  | '.' :: c :: cs =>
      if c.isDigit then cs.dropWhile Char.isDigit else '.' :: c :: cs
  | cs => cs

def time? (cs : List Char) : Option (List Char) := do
  let (_, cs) ← twoDigits? 0 23 cs
  let cs ← expect? ':' cs
  let (_, cs) ← twoDigits? 0 59 cs
  let cs ← expect? ':' cs
  let (_, cs) ← twoDigits? 0 60 cs
  some (secondFraction cs)

/-- The rest behind an offset from universal time. -/
def offset? : List Char → Option (List Char)
  | c :: cs =>
      if c == 'Z' || c == 'z' then some cs
      else if c == '+' || c == '-' then do
        let (_, cs) ← twoDigits? 0 23 cs
        let cs ← expect? ':' cs
        let (_, cs) ← twoDigits? 0 59 cs
        some cs
      else none
  | [] => none

/-- The rest behind a time that follows a date, with its offset. -/
def timeAfterDate? : List Char → Option (List Char)
  | c :: cs =>
      if c == 'T' || c == 't' || c == ' ' then do
        let rest ← time? cs
        some ((offset? rest).getD rest)
      else none
  | [] => none

/-- A date, a time, or a date and a time. -/
def datetime? (cs : List Char) : Option (Item × List Char) := do
  let rest ← match date? cs with
    | some rest => some ((timeAfterDate? rest).getD rest)
    | none => time? cs
  some (.datetime (taken cs rest), rest)

/-! ## Keys -/

def isBareKeyChar (c : Char) : Bool :=
  c.isAlphanum || c == '-' || c == '_'

def simpleKey? : List Char → Option (String × List Char)
  | '"' :: cs => do
      let (text, rest) ← basicString? cs
      some (String.ofList text, rest)
  | '\'' :: cs => do
      let (text, rest) ← literalString? cs
      some (String.ofList text, rest)
  | cs =>
      let key := cs.takeWhile isBareKeyChar
      if key.isEmpty then none else some (String.ofList key, cs.drop key.length)

/-- The parts of a key between dots, blanks around them passed over. -/
def keyParts? (cs : List Char) : Option (List String × List Char) :=
  match simpleKey? (skipWs cs) with
  | none => none
  | some (part, rest) =>
      match skipWs rest with
      | '.' :: more =>
          if more.length < cs.length then do
            let (parts, rest) ← keyParts? more
            some (part :: parts, rest)
          else none
      | rest => some ([part], rest)
termination_by cs.length

/-- Keys, arrays and inline tables go fewer levels deep than this. -/
def nestingBound : Nat := 80

/-- A key as the parts in front of the last dot, and the last part. -/
def key? (cs : List Char) : Option ((List String × String) × List Char) := do
  let (parts, rest) ← keyParts? cs
  let last ← parts.getLast?
  if parts.length < nestingBound then some ((parts.dropLast, last), rest)
  else none

end MarkupTemplate.Toml
