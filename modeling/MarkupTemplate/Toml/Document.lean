/-
Values and documents of TOML.  A document is a list of statements, one to a
line; the tables are built from them in order.
-/
import MarkupTemplate.Toml.Scalar

namespace MarkupTemplate.Toml

/-- A reader takes its text off the front of the characters. -/
abbrev Reader (α : Type) := List Char → Option (α × List Char)

/-- The rest behind blanks, line ends and comments.  `inComment` says that a
comment has begun; it has to end with its line. -/
def skipLines? (inComment : Bool) : List Char → Option (List Char)
  | [] => if inComment then none else some []
  | '\r' :: '\n' :: cs => skipLines? false cs
  | '\n' :: cs => skipLines? false cs
  | c :: cs =>
      if inComment then
        if isCommentChar c then skipLines? true cs else none
      else if isWs c then skipLines? false cs
      else if c == '#' then skipLines? true cs
      else if c == '\r' then none
      else some (c :: cs)

/-- The items of an array from behind its opening bracket or a comma. -/
def arrayItems? (item : Reader Item) (cs : List Char) :
    Option (List Item × List Char) :=
  match skipLines? false cs with
  | none => none
  | some (']' :: rest) => some ([], rest)
  | some start =>
      match item start with
      | none => none
      | some (first, behind) =>
          match skipLines? false behind with
          | some (']' :: rest) => some ([first], rest)
          | some (',' :: more) =>
              if more.length < cs.length then do
                let (items, rest) ← arrayItems? item more
                some (first :: items, rest)
              else none
          | _ => none
termination_by cs.length

/-- A key, an equals sign and a value.  Blanks are passed over. -/
def pair? (item : Reader Item) (cs : List Char) :
    Option (((List String × String) × Item) × List Char) := do
  let (key, rest) ← key? cs
  let rest ← expect? '=' rest
  let (value, rest) ← item (skipWs rest)
  some ((key, value), skipWs rest)

/-- The pairs of an inline table up to its closing brace, added to `known`.
There is at least one. -/
def inlinePairs? (item : Reader Item) (known : Entries) (cs : List Char) :
    Option (Entries × List Char) :=
  match pair? item cs with
  | none => none
  | some (((path, key), value), behind) =>
      match known.insert? key value path with
      | none => none
      | some known =>
          match behind with
          | '}' :: rest => some (known, rest)
          | ',' :: more =>
              if more.length < cs.length then inlinePairs? item known more
              else none
          | _ => none
termination_by cs.length

/-- The table between braces, from behind the opening one. -/
def inlineTable? (item : Reader Item) (cs : List Char) :
    Option (Item × List Char) :=
  match skipWs cs with
  | '}' :: rest => some (.table .inline [], rest)
  | _ => do
      let (entries, rest) ← inlinePairs? item [] cs
      some (.table .inline entries, rest)

/-- A value that is no array and no table. -/
def scalarItem? (cs : List Char) : Option (Item × List Char) :=
  match cs with
  | 't' :: 'r' :: 'u' :: 'e' :: rest => some (.boolean true, rest)
  | 'f' :: 'a' :: 'l' :: 's' :: 'e' :: rest => some (.boolean false, rest)
  | '"' :: _ | '\'' :: _ => do
      let (text, rest) ← string? cs
      some (.string (String.ofList text), rest)
  | _ => datetime? cs <|> float? cs <|> integer? cs

/-- A value with at most `levels` arrays and inline tables one inside
another. -/
def item? (levels : Nat) (cs : List Char) : Option (Item × List Char) :=
  match levels, cs with
  | levels + 1, '[' :: rest => do
      let (items, rest) ← arrayItems? (item? levels) rest
      some (.array items, rest)
  | levels + 1, '{' :: rest => inlineTable? (item? levels) rest
  | _, cs => scalarItem? cs

inductive Statement where
  | header (path : List String) (key : String)
  | arrayHeader (path : List String) (key : String)
  | pair (path : List String) (key : String) (item : Item)
  deriving Repr

/-- The rest behind the end of a line, with the comment in front of it. -/
def lineEnd? (cs : List Char) : Option (List Char) :=
  let cs := match skipWs cs with
    | '#' :: rest => rest.dropWhile isCommentChar
    | rest => rest
  match cs with
  | [] => some []
  | '\n' :: rest => some rest
  | '\r' :: '\n' :: rest => some rest
  | _ => none

/-- The statement of a line that is not blank. -/
def statement? (cs : List Char) : Option (Statement × List Char) :=
  match cs with
  | '[' :: '[' :: cs => do
      let ((path, key), rest) ← key? cs
      let rest ← expect? ']' rest
      let rest ← expect? ']' rest
      some (.arrayHeader path key, ← lineEnd? rest)
  | '[' :: cs => do
      let ((path, key), rest) ← key? cs
      let rest ← expect? ']' rest
      some (.header path key, ← lineEnd? rest)
  | cs => do
      let (((path, key), item), rest) ← pair? (item? (nestingBound - 1)) cs
      some (.pair path key item, ← lineEnd? rest)

def statements? (cs : List Char) : Option (List Statement) :=
  match cs with
  | [] => some []
  | c :: rest =>
      match lineEnd? (c :: rest) with
      | some next =>
          if next.length ≤ rest.length then statements? next else none
      | none =>
          match statement? (skipWs (c :: rest)) with
          | none => none
          | some (statement, next) =>
              if next.length ≤ rest.length then do
                let later ← statements? next
                some (statement :: later)
              else none
termination_by cs.length

/-- Add the pairs up to the next header to a table. -/
def fill? : List Statement → Entries → Option Entries
  | .pair path key item :: later, entries => do
      let entries ← entries.insert? key item path
      fill? later entries
  | _, entries => some entries

/-- Add the tables that headers open, each with the pairs that follow it. -/
def sections? (statements : List Statement) (root : Entries) : Option Entries :=
  match statements with
  | [] => some root
  | .pair .. :: later => sections? later root
  | .header path key :: later => do
      let root ← root.modify? (Entries.define? key (fill? later)) path
      sections? later root
  | .arrayHeader path key :: later => do
      let root ← root.modify? (Entries.push? key (fill? later)) path
      sections? later root

/-- The table of a whole document.  A byte order mark in front is passed
over. -/
def read? (text : String) : Option Entries := do
  let cs := match text.toList with
    | '\ufeff' :: cs => cs
    | cs => cs
  let statements ← statements? cs
  let root ← fill? statements []
  sections? statements root

end MarkupTemplate.Toml
