/-
How the content of an element is read.
-/

namespace MarkupTemplate

/-- A name with its ASCII letters in lower case. -/
def foldCase (name : String) : List Char :=
  name.toList.map Char.toLower

/-- How the characters of content are understood. -/
inductive TextMode where
  /-- Tags, comments, interpolations and text. -/
  | data
  /-- Interpolations and text. -/
  | rcdata
  /-- Text alone. -/
  | rawtext
  /-- Text alone, in a CDATA section. -/
  | cdata
  deriving Repr, DecidableEq, Inhabited

namespace TextMode

/-- The elements whose content is not read as ordinary markup. -/
def table : List (String × TextMode) :=
  [("textarea", rcdata), ("title", rcdata), ("style", rawtext),
    ("script", rawtext), ("xmp", rawtext), ("iframe", rawtext),
    ("noembed", rawtext), ("noframes", rawtext), ("noscript", rawtext)]

/-- The mode inside an element.  The case of ASCII letters does not matter. -/
def ofTag (tag : String) : TextMode :=
  ((table.find? fun entry =>
    foldCase entry.1 == foldCase tag).map (·.2)).getD data

/-- Whether a tag, comment or CDATA section may begin. -/
def allowsMarkup : TextMode → Bool
  | data => true
  | _ => false

def allowsInterpolation : TextMode → Bool
  | data | rcdata => true
  | rawtext | cdata => false

def name : TextMode → String
  | data => "Data"
  | rcdata => "Rcdata"
  | rawtext => "Rawtext"
  | cdata => "Cdata"

end TextMode

end MarkupTemplate
