/-
Settings from a TOML document.  What the document does not name keeps its
default, and a key that no setting has is refused.
-/
import MarkupTemplate.Compile
import MarkupTemplate.Toml.Document

namespace MarkupTemplate.Settings

open Toml

/-- The settings that a table may hold: for each key, how its item changes a
value.  A table may also be written as an array of the items alone. -/
abbrev Fields (α : Type) := List (String × (Item → α → Option α))

def overlayEntries {α : Type} (fields : Fields α) : Entries → α → Option α
  | [], a => some a
  | (key, item) :: entries, a => do
      let change ← fields.lookup key
      let a ← change item a
      overlayEntries fields entries a

/-- Change a value by the items of an array, which stand for the fields in
order.  There is an item for every field; more are passed over. -/
def overlayItems {α : Type} : Fields α → List Item → α → Option α
  | [], _, a => some a
  | _ :: _, [], _ => none
  | (_, change) :: fields, item :: items, a => do
      let a ← change item a
      overlayItems fields items a

/-- Change a value by a table, however it is written. -/
def overlay {α : Type} (fields : Fields α) : Item → α → Option α
  | .table _ entries, a => overlayEntries fields entries a
  | .array items, a => overlayItems fields items a
  | .tables elements, a => overlayItems fields (elements.map (.table .header)) a
  | _, _ => none

def boolean? : Item → Option Bool
  | .boolean b => some b
  | _ => none

def string? : Item → Option String
  | .string s => some s
  | _ => none

/-- An integer that is not negative. -/
def natural? : Item → Option Nat
  | .integer (.ofNat n) => some n
  | _ => none

def isEmptyItem : Item → Bool
  | .table _ entries => entries.isEmpty
  | .array items => items.isEmpty
  | _ => false

/-- One of several named choices: its name, or a table with its name alone. -/
def choice? {α : Type} (choices : List (String × α)) : Item → Option α
  | .string name => choices.lookup name
  | .table _ [(name, item)] =>
      if isEmptyItem item then choices.lookup name else none
  | _ => none

def readingFields : Fields ReadOptions :=
  [("whitespace", fun item o => do
      let whitespace ←
        choice? [("preserve", .preserve), ("condense", .condense)] item
      some { o with whitespace }),
    ("max_depth", fun item o => do
      let maxDepth ← natural? item
      some { o with maxDepth })]

def renderingFields : Fields RenderOptions :=
  [("builder", fun item o => do
      let builder ← string? item
      some { o with builder }),
    ("render_function", fun item o => do
      let renderFunction ← string? item
      some { o with renderFunction }),
    ("multi_root", fun item o => do
      let multiRoot ←
        choice? [("first-only", .firstOnly), ("array", .array)] item
      some { o with multiRoot })]

def styleFields : Fields Style :=
  [("indent_width", fun item o => do
      let indentWidth ← natural? item
      some { o with indentWidth }),
    ("quote", fun item o => do
      let quote ← choice? [("single", .single), ("double", .double)] item
      some { o with quote })]

def fields : Fields Settings :=
  [("strict", fun item s => do
      let strict ← boolean? item
      some { s with strict }),
    ("parser", fun item s => do
      let reading ← overlay readingFields item s.reading
      some { s with reading }),
    ("transform", fun item s => do
      let rendering ← overlay renderingFields item s.rendering
      some { s with rendering }),
    ("codegen", fun item s => do
      let style ← overlay styleFields item s.style
      some { s with style })]

/-- The settings of a document, if it is well formed and names settings only. -/
def load? (text : String) : Option Settings := do
  let entries ← Toml.read? text
  overlayEntries fields entries {}

end MarkupTemplate.Settings
