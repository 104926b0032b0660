/-
What a TOML document holds, and how its tables grow.  A table remembers how it
came about, because that decides what may still be added to it.
-/

namespace MarkupTemplate.Toml

/-- How a table came about. -/
inductive Origin where
  /-- By its own header. -/
  | header
  /-- As a table on the way to the one that a header names. -/
  | implied
  /-- As a table on the way to the key of a dotted key. -/
  | dotted
  /-- Between braces. -/
  | inline
  deriving Repr, DecidableEq

/-- A value, a table, or the tables of an array of tables. -/
inductive Item where
  | string (value : String)
  | integer (value : Int)
  /-- A float, as it is written. -/
  | float (text : String)
  | boolean (value : Bool)
  /-- A date, a time or both, as they are written. -/
  | datetime (text : String)
  | array (items : List Item)
  | table (origin : Origin) (entries : List (String × Item))
  | tables (elements : List (List (String × Item)))
  deriving Repr

/-- The keys of a table with what they stand for. -/
abbrev Entries := List (String × Item)

namespace Entries

def put (entries : Entries) (key : String) (item : Item) : Entries :=
  entries.map fun entry => if entry.1 == key then (key, item) else entry

/-- Add a key that is not there yet. -/
def add? (entries : Entries) (key : String) (item : Item) : Option Entries :=
  if (entries.lookup key).isSome then none else some (entries ++ [(key, item)])

/-- Add the value of a dotted key; `path` is what stands before the last dot.
The way may lead through tables that no header has defined, and the table at
its end has to be one that dotted keys made. -/
def insert? (key : String) (item : Item) :
    (path : List String) → Entries → Option Entries
  | [], entries => entries.add? key item
  | step :: path, entries =>
      match entries.lookup step with
      | none => do
          let below ← insert? key item path []
          some (entries ++ [(step, .table .dotted below)])
      | some (.table .dotted below) => do
          let below ← insert? key item path below
          some (entries.put step (.table .dotted below))
      | some (.table .implied below) =>
          if path.isEmpty then none
          else do
            let below ← insert? key item path below
            some (entries.put step (.table .implied below))
      | some (.tables elements) =>
          if path.isEmpty then none
          else do
            let below ← insert? key item path (elements.getLast?.getD [])
            some (entries.put step (.tables (elements.dropLast ++ [below])))
      | some _ => none

/-- Change the table that `path` leads to.  Tables on the way are made where
they are missing; in an array of tables the way leads through the last one. -/
def modify? (change : Entries → Option Entries) :
    (path : List String) → Entries → Option Entries
  | [], entries => change entries
  | step :: path, entries =>
      match entries.lookup step with
      | none => do
          let below ← modify? change path []
          some (entries ++ [(step, .table .implied below)])
      | some (.table .inline _) => none
      | some (.table origin below) => do
          let below ← modify? change path below
          some (entries.put step (.table origin below))
      | some (.tables elements) => do
          let below ← modify? change path (elements.getLast?.getD [])
          some (entries.put step (.tables (elements.dropLast ++ [below])))
      | some _ => none

/-- Define a table under a key.  Only a table that is implied so far may be
defined; `fill` adds to what it holds. -/
def define? (key : String) (fill : Entries → Option Entries)
    (entries : Entries) : Option Entries :=
  match entries.lookup key with
  | none => do
      let table ← fill []
      some (entries ++ [(key, .table .header table)])
  | some (.table .implied known) => do
      let table ← fill known
      some (entries.put key (.table .header table))
  | some _ => none

/-- Add a table to the array of tables under a key. -/
def push? (key : String) (fill : Entries → Option Entries) (entries : Entries) :
    Option Entries :=
  match entries.lookup key with
  | none => do
      let table ← fill []
      some (entries ++ [(key, .tables [table])])
  | some (.tables elements) => do
      let table ← fill []
      some (entries.put key (.tables (elements ++ [table])))
  | some _ => none

end Entries

end MarkupTemplate.Toml
