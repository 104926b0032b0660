/-
Documents of TOML line by line.  A document that is written as pairs and headers
is read as exactly the tables it writes, and a key that a line names stays in
its table, whatever follows.
-/
import MarkupTemplate.Proofs.TomlScalar

namespace MarkupTemplate.Toml

/-! ## How a line opens -/

inductive LineKind where
  | header
  | pair
  deriving DecidableEq

/-- A text opens with the header of a table, or with the key of a pair.  What
stands behind the bracket or the equals sign may be anything. -/
inductive Opens (key : String) : LineKind → List Char → Prop where
  | header {text : List Char} (h : KeyText key text) (rest : List Char) :
      Opens key .header ('[' :: (text ++ ']' :: rest))
  | pair {text : List Char} (h : KeyText key text) (rest : List Char) :
      Opens key .pair (text ++ '=' :: rest)

def Statement.Names (key : String) : LineKind → Statement → Prop
  | .header, statement => statement = .header [] key
  | .pair, statement => ∃ item, statement = .pair [] key item

theorem KeyText.of_spelled {key : String} {spelled right : List Char}
    (hspelled : KeySpelled key spelled) (hright : ∀ c ∈ right, isWs c = true) :
    KeyText key (spelled ++ right) :=
  KeyText.mk (List.forall_mem_nil _) hspelled hright

/-- Behind blanks, a key begins with none of the marks of a line. -/
theorem KeyText.skipWs_eq {key : String} {text : List Char}
    (h : KeyText key text) (rest : List Char) :
    ∃ c cs, KeyText key (c :: cs) ∧ skipWs (text ++ rest) = c :: cs ++ rest ∧
      c ∉ lineMarks := by
  cases h with
  | @mk left spelled right hleft hspelled hright =>
      obtain ⟨c, cs, rfl, hc⟩ := hspelled.exists_head
      refine ⟨c, cs ++ right, KeyText.of_spelled hspelled hright, ?_, hc⟩
      rw [List.append_assoc]
      apply skipWs_append hleft
      simp_all [isWs, lineMarks]

theorem KeyText.exists_head {key : String} {text : List Char}
    (h : KeyText key text) :
    ∃ c cs, text = c :: cs ∧ c ≠ '[' ∧ c ≠ '\ufeff' := by
  cases h with
  | @mk left spelled right hleft hspelled hright =>
      cases left with
      | nil =>
          obtain ⟨c, cs, rfl, hc⟩ := hspelled.exists_head
          exact ⟨c, cs ++ right, rfl, by simp_all [lineMarks]⟩
      | cons c left =>
          have hc := hleft c List.mem_cons_self
          refine ⟨c, _, rfl, ?_, ?_⟩ <;>
          · rintro rfl
            exact absurd hc (by decide)

theorem lineEnd?_eq_none {c : Char} {cs rest : List Char}
    (hskip : skipWs cs = c :: rest) (hnewline : c ≠ '\n') (hreturn : c ≠ '\r')
    (hcomment : c ≠ '#') : lineEnd? cs = none := by
  simp [lineEnd?, hskip, hnewline, hreturn, hcomment]

namespace Opens

variable {key : String} {kind : LineKind} {cs : List Char}

theorem append (h : Opens key kind cs) (rest : List Char) :
    Opens key kind (cs ++ rest) := by
  cases h with
  | header h more => simpa using Opens.header h (more ++ rest)
  | pair h more => simpa using Opens.pair h (more ++ rest)

theorem head_ne (h : Opens key kind cs) : ∀ c ∈ cs.head?, c ≠ '\ufeff' := by
  cases h with
  | header h rest => simp
  | pair h rest =>
      obtain ⟨c, cs, rfl, _, hc⟩ := h.exists_head
      simpa using hc

theorem lineEnd?_eq (h : Opens key kind cs) : lineEnd? cs = none := by
  cases h with
  | header h rest =>
      exact lineEnd?_eq_none rfl (by decide) (by decide) (by decide)
  | pair h rest =>
      obtain ⟨c, cs, _, hskip, hc⟩ := h.skipWs_eq ('=' :: rest)
      simp only [lineMarks, List.mem_cons, not_or] at hc
      exact lineEnd?_eq_none hskip hc.2.2.1 hc.2.2.2.1 hc.2.2.2.2.1

end Opens

theorem statement?_header {key : String} {text : List Char}
    (h : KeyText key text) (rest : List Char) :
    statement? ('[' :: (text ++ ']' :: rest)) =
      (lineEnd? rest).map fun next => (.header [] key, next) := by
  have hread : key? (text ++ ']' :: rest) = some (([], key), ']' :: rest) :=
    h.key?_eq (by simp)
  obtain ⟨c, cs, rfl, hc, _⟩ := h.exists_head
  rw [List.cons_append] at hread ⊢
  rw [statement?]
  · simp only [hread, expect?, Option.bind_eq_bind, Option.bind_some,
      beq_self_eq_true, if_true]
    cases lineEnd? rest <;> rfl
  · exact fun more h => hc (List.cons.inj h).1

theorem statement?_pair {key : String} {text : List Char} (h : KeyText key text)
    (rest : List Char) :
    statement? (skipWs (text ++ '=' :: rest)) = (do
      let (item, rest) ← item? (nestingBound - 1) (skipWs rest)
      let next ← lineEnd? (skipWs rest)
      some (.pair [] key item, next)) := by
  obtain ⟨c, cs, htext, hskip, hc⟩ := h.skipWs_eq ('=' :: rest)
  have hread : key? (c :: cs ++ '=' :: rest) = some (([], key), '=' :: rest) :=
    htext.key?_eq (by simp)
  have hbracket : ∀ more, c :: (cs ++ '=' :: rest) ≠ '[' :: more := by
    intro more h
    simp_all [lineMarks]
  rw [hskip]
  rw [List.cons_append] at hread ⊢
  rw [statement?]
  · simp only [pair?, hread, expect?, Option.bind_eq_bind, Option.bind_some,
      beq_self_eq_true, if_true]
    cases item? (nestingBound - 1) (skipWs rest) <;> rfl
  · exact fun more => hbracket _
  · exact hbracket

/-- The statement of a line names the key that the line opens with. -/
theorem Opens.names {key : String} {kind : LineKind} {cs next : List Char}
    {statement : Statement} (h : Opens key kind cs)
    (hread : statement? (skipWs cs) = some (statement, next)) :
    statement.Names key kind := by
  cases h with
  | @header text h rest =>
      have hskip : skipWs ('[' :: (text ++ ']' :: rest)) =
          '[' :: (text ++ ']' :: rest) := rfl
      rw [hskip, statement?_header h] at hread
      obtain ⟨_, _, heq⟩ := Option.map_eq_some_iff.mp hread
      exact (Prod.mk.inj heq).1.symm
  | pair h rest =>
      rw [statement?_pair h] at hread
      simp only [Option.bind_eq_bind, Option.bind_eq_some_iff,
        Option.some.injEq, Prod.mk.injEq] at hread
      obtain ⟨⟨item, _⟩, _, _, _, heq, _⟩ := hread
      exact ⟨item, heq.symm⟩

/-! ## Statements -/

theorem statements?_of_statement? {cs next : List Char} {statement : Statement}
    (hend : lineEnd? cs = none)
    (hread : statement? (skipWs cs) = some (statement, next))
    (hlength : next.length < cs.length) :
    statements? cs = (statements? next).map (statement :: ·) := by
  cases cs with
  | nil => simp at hlength
  | cons c rest =>
      rw [statements?, hend]
      simp only [hread]
      rw [if_pos (Nat.lt_succ_iff.mp hlength)]
      cases statements? next <;> rfl

/-- A document that opens with a line has its statement. -/
theorem Opens.exists_statement {key : String} {kind : LineKind} {cs : List Char}
    {statements : List Statement} (h : Opens key kind cs)
    (hread : statements? cs = some statements) :
    ∃ statement later, statements = statement :: later ∧
      statement.Names key kind := by
  have hend := h.lineEnd?_eq
  cases cs with
  | nil => contradiction
  | cons c rest =>
      rw [statements?, hend] at hread
      cases hstatement : statement? (skipWs (c :: rest)) with
      | none => simp [hstatement] at hread
      | some found =>
          obtain ⟨statement, next⟩ := found
          simp only [hstatement, Option.ite_none_right_eq_some,
            Option.bind_eq_bind, Option.bind_eq_some_iff,
            Option.some.injEq] at hread
          obtain ⟨_, later, _, rfl⟩ := hread
          exact ⟨statement, later, rfl, h.names hstatement⟩

/-! ## Written lines -/

/-- A line of a document: the header of a table, or a pair. -/
inductive Line where
  | header (name : String)
  | pair (key : String) (value : Scalar)

def IsBareKey (key : String) : Prop :=
  key.toList ≠ [] ∧ ∀ c ∈ key.toList, isBareKeyChar c = true

namespace Line

def key : Line → String
  | header name => name
  | pair key _ => key

def kind : Line → LineKind
  | header _ => .header
  | pair .. => .pair

def text (e : Escaping) : Line → List Char
  | header name => '[' :: (name.toList ++ [']', '\n'])
  | pair key value =>
      key.toList ++ ([' ', '=', ' '] ++ (value.text e ++ ['\n']))

def statement : Line → Statement
  | header name => .header [] name
  | pair key value => .pair [] key value.item

end Line

def linesText (e : Escaping) (lines : List Line) : List Char :=
  lines.flatMap (Line.text e)

namespace Line

variable {line : Line} (e : Escaping) (rest : List Char)

theorem opens_text (h : IsBareKey line.key) :
    Opens line.key line.kind (line.text e ++ rest) := by
  cases line with
  | header name =>
      have hkey : KeyText name (name.toList ++ []) :=
        .of_spelled (.bare h.1 h.2) (by simp)
      simpa [text, key, kind] using Opens.header hkey ('\n' :: rest)
  | pair name value =>
      have hkey : KeyText name (name.toList ++ [' ']) :=
        .of_spelled (.bare h.1 h.2) (by simp [isWs])
      simpa [text, key, kind]
        using Opens.pair hkey (' ' :: (value.text e ++ '\n' :: rest))

theorem statement?_text (h : IsBareKey line.key) :
    statement? (skipWs (line.text e ++ rest)) =
      some (line.statement, rest) := by
  cases line with
  | header name =>
      have hkey : KeyText name (name.toList ++ []) :=
        .of_spelled (.bare h.1 h.2) (by simp)
      have hread := statement?_header hkey ('\n' :: rest)
      simpa [text, statement, skipWs, isWs, lineEnd?] using hread
  | pair key value =>
      have hblanks : ∀ c ∈ [' '], isWs c = true := by simp [isWs]
      have hkey : KeyText key (key.toList ++ [' ']) :=
        .of_spelled (.bare h.1 h.2) hblanks
      have hskip : skipWs (' ' :: (value.text e ++ '\n' :: rest)) =
          value.text e ++ '\n' :: rest := by
        obtain ⟨c, cs, htext, _, _, hblank⟩ := value.head_text e
        exact skipWs_append hblanks (by simp [htext, hblank])
      have hread := statement?_pair hkey (' ' :: (value.text e ++ '\n' :: rest))
      rw [hskip, item?_text] at hread
      simpa [text, statement, skipWs, isWs, lineEnd?] using hread

end Line

theorem statements?_linesText (e : Escaping) {lines : List Line}
    (h : ∀ line ∈ lines, IsBareKey line.key) (rest : List Char) :
    statements? (linesText e lines ++ rest) =
      (statements? rest).map (lines.map Line.statement ++ ·) := by
  induction lines with
  | nil => simp [linesText]
  | cons line lines ih =>
      have hbare := h line List.mem_cons_self
      have htext : linesText e (line :: lines) ++ rest =
          line.text e ++ (linesText e lines ++ rest) := by
        simp [linesText]
      have hlength : 0 < (line.text e).length := by
        cases line <;> simp [Line.text]
      rw [htext,
        statements?_of_statement? (line.opens_text e _ hbare).lineEnd?_eq
        (line.statement?_text e _ hbare) (by simp [hlength]),
        ih fun line hline => h line (List.mem_cons_of_mem _ hline),
        Option.map_map]
      rfl

theorem read?_ofList {cs : List Char} (h : ∀ c ∈ cs.head?, c ≠ '\ufeff') :
    read? (String.ofList cs) = (do
      let statements ← statements? cs
      let root ← fill? statements []
      sections? statements root) := by
  cases cs with
  | nil => rfl
  | cons c cs =>
      have hc : c ≠ '\ufeff' := h c rfl
      simp [read?, hc]

/-! ## Tables grow -/

namespace Entries

variable {entries old new : Entries} {key name : String} {item : Item}

def names (entries : Entries) : List String :=
  entries.map Prod.fst

theorem lookup_eq_none_iff_names :
    entries.lookup key = none ↔ key ∉ entries.names := by
  rw [List.lookup_eq_none_iff]
  simp only [names, List.mem_map, bne_iff_ne, not_exists, not_and]
  exact ⟨fun h entry hentry heq => h entry hentry heq.symm,
    fun h entry hentry heq => h entry hentry heq.symm⟩

theorem names_put : (entries.put key item).names = entries.names := by
  simp only [names, put, List.map_map]
  apply List.map_congr_left
  intro entry _
  by_cases h : entry.1 = key <;> simp [h]

theorem lookup_cons_eq {known : String} {value : Item} :
    List.lookup name ((known, value) :: entries) =
      if name = known then some value else entries.lookup name := by
  by_cases h : name = known
  · simp [h]
  · rw [List.lookup_cons, beq_false_of_ne h, if_neg h]

theorem lookup_put :
    (entries.put key item).lookup name =
      if name = key then (entries.lookup name).map fun _ => item
      else entries.lookup name := by
  induction entries with
  | nil => simp [put]
  | cons entry entries ih =>
      obtain ⟨known, value⟩ := entry
      have hcons : put ((known, value) :: entries) key item =
          (known, if known = key then item else value) ::
          put entries key item := by
        by_cases h : known = key <;> simp [put, h]
      rw [hcons, lookup_cons_eq, lookup_cons_eq, ih]
      split_ifs <;> simp_all

/-- Nothing is taken away: neither a key, nor a key of a table below. -/
structure Extends (old new : Entries) : Prop where
  names : old.names ⊆ new.names
  tables : ∀ name origin below, old.lookup name = some (.table origin below) →
    ∃ origin' below', new.lookup name = some (.table origin' below') ∧
      Entries.names below ⊆ Entries.names below'

namespace Extends

theorem refl (entries : Entries) : entries.Extends entries :=
  ⟨fun _ h => h, fun _ _ _ h => ⟨_, _, h, fun _ h => h⟩⟩

theorem trans {first second third : Entries} (h : first.Extends second)
    (h' : second.Extends third) : first.Extends third := by
  refine ⟨fun _ hname =>
    h'.names (h.names hname), fun name origin below hlookup => ?_⟩
  obtain ⟨origin, mid, hmid, hkeys⟩ := h.tables name origin below hlookup
  obtain ⟨origin, last, hlast, hkeys'⟩ := h'.tables name origin mid hmid
  exact ⟨origin, last, hlast, fun _ hname => hkeys' (hkeys hname)⟩

theorem append (entries more : Entries) :
    entries.Extends (entries ++ more) := by
  refine ⟨by simp [Entries.names], fun name origin below hlookup => ?_⟩
  exact ⟨origin, below, by simp [List.lookup_append, hlookup], fun _ h => h⟩

theorem put {known : Item} (hlookup : entries.lookup key = some known)
    (hgrow : ∀ origin below, known = .table origin below →
      ∃ origin' below', item = .table origin' below' ∧
        Entries.names below ⊆ Entries.names below') :
    entries.Extends (entries.put key item) := by
  refine ⟨by rw [names_put]; exact List.Subset.refl _,
    fun name origin below h => ?_⟩
  by_cases heq : name = key
  · subst heq
    obtain rfl : known = .table origin below :=
      Option.some.inj (hlookup.symm.trans h)
    obtain ⟨origin', below', rfl, hkeys⟩ := hgrow origin below rfl
    exact ⟨origin', below', by rw [lookup_put, if_pos rfl, h]; rfl, hkeys⟩
  · exact ⟨origin, below, by rw [lookup_put, if_neg heq, h], fun _ h => h⟩

end Extends

theorem Extends.of_some (h : some old = some new) : old.Extends new := by
  rw [← Option.some.inj h]
  exact .refl old

-- The operations on tables add a key, or put a table that grew in the place of
-- the one they found, or change an array of tables.

theorem Extends.of_append {below? : Option Entries} {item : Entries → Item}
    (h : (below? >>= fun below => some (old ++ [(key, item below)])) =
      some new) :
    old.Extends new := by
  obtain ⟨below, _, h⟩ := Option.bind_eq_some_iff.mp h
  rw [← Option.some.inj h]
  exact .append old _

theorem Extends.of_put_table {below? : Option Entries} {known : Entries}
    {origin origin' : Origin}
    (hlookup : old.lookup key = some (.table origin known))
    (hgrows : ∀ below, below? = some below → known.Extends below)
    (h : (below? >>= fun below => some (old.put key (.table origin' below))) =
      some new) :
    old.Extends new := by
  obtain ⟨below, hbelow, h⟩ := Option.bind_eq_some_iff.mp h
  rw [← Option.some.inj h]
  refine .put hlookup fun _ _ heq => ?_
  cases heq
  exact ⟨origin', below, rfl, (hgrows below hbelow).names⟩

theorem Extends.of_put_tables {below? : Option Entries}
    {elements : List Entries} {elements' : Entries → List Entries}
    (hlookup : old.lookup key = some (.tables elements))
    (h : (below? >>= fun below =>
      some (old.put key (.tables (elements' below)))) = some new) :
    old.Extends new := by
  obtain ⟨below, _, h⟩ := Option.bind_eq_some_iff.mp h
  rw [← Option.some.inj h]
  exact .put hlookup fun _ _ heq => nomatch heq

theorem extends_of_insert? {path : List String}
    (h : insert? key item path old = some new) : old.Extends new := by
  induction path generalizing old new with
  | nil =>
      rw [insert?, add?, Option.ite_none_left_eq_some] at h
      rw [← Option.some.inj h.2]
      exact .append old _
  | cons step path ih =>
      rw [insert?] at h
      split at h
      · exact .of_append h
      · next hlookup => exact .of_put_table hlookup (fun _ => ih) h
      · next hlookup =>
          exact .of_put_table hlookup (fun _ => ih)
            (Option.ite_none_left_eq_some.mp h).2
      · next hlookup =>
          exact .of_put_tables hlookup (Option.ite_none_left_eq_some.mp h).2
      · contradiction

/-- A function that takes nothing away from a table. -/
def Grows (change : Entries → Option Entries) : Prop :=
  ∀ old new, change old = some new → old.Extends new

theorem Grows.modify? {change : Entries → Option Entries}
    (hchange : Grows change) (path : List String) :
    Grows (modify? change path) := by
  induction path with
  | nil => exact hchange
  | cons step path ih =>
      intro old new h
      rw [Entries.modify?] at h
      split at h
      · exact .of_append h
      · contradiction
      · next hlookup => exact .of_put_table hlookup (fun below => ih _ below) h
      · next hlookup => exact .of_put_tables hlookup h
      · contradiction

theorem Grows.define? {fill : Entries → Option Entries} (hfill : Grows fill)
    (key : String) : Grows (define? key fill) := by
  intro old new h
  rw [Entries.define?] at h
  split at h
  · exact .of_append h
  · next hlookup => exact .of_put_table hlookup (fun table => hfill _ table) h
  · contradiction

theorem grows_push? (key : String) (fill : Entries → Option Entries) :
    Grows (push? key fill) := by
  intro old new h
  rw [push?] at h
  split at h
  · exact .of_append h
  · next hlookup => exact .of_put_tables hlookup h
  · contradiction

end Entries

open Entries

theorem grows_fill? (statements : List Statement) :
    Grows (fill? statements) := by
  induction statements with
  | nil => exact fun _ _ => .of_some
  | cons statement later ih =>
      intro old new h
      cases statement with
      | pair path key item =>
          obtain ⟨mid, hmid, hnew⟩ := Option.bind_eq_some_iff.mp h
          exact (extends_of_insert? hmid).trans (ih mid new hnew)
      | header path key | arrayHeader path key => exact .of_some h

theorem grows_sections? (statements : List Statement) :
    Grows (sections? statements) := by
  induction statements with
  | nil => exact fun _ _ => .of_some
  | cons statement later ih =>
      intro old new h
      cases statement with
      | pair path key item => exact ih old new h
      | header path key =>
          obtain ⟨mid, hmid, hnew⟩ := Option.bind_eq_some_iff.mp h
          exact (((grows_fill? later).define? key).modify? path _ _ hmid).trans
            (ih mid new hnew)
      | arrayHeader path key =>
          obtain ⟨mid, hmid, hnew⟩ := Option.bind_eq_some_iff.mp h
          exact ((grows_push? key (fill? later)).modify? path _ _ hmid).trans
            (ih mid new hnew)

/-! ## Keys stay in their tables -/

def pairLines (pairs : List (String × Scalar)) : List Line :=
  pairs.map fun pair => .pair pair.1 pair.2

/-- The table that a line behind these lines belongs to, if any header stands
among them. -/
def sectionOf : List Line → Option String
  | [] => none
  | .header name :: later => some ((sectionOf later).getD name)
  | .pair .. :: later => sectionOf later

/-- Where a line that follows others names its key: a header at the top level,
a pair in the table that is open. -/
def LineKind.place (front : List Line) : LineKind → Option String
  | .header => none
  | .pair => sectionOf front

/-- The entries at the top level, or those of a table there. -/
def Entries.tableAt? (entries : Entries) : Option String → Option Entries
  | none => some entries
  | some table =>
      match entries.lookup table with
      | some (.table _ below) => some below
      | _ => none

/-- A key stands at the top level, or in a table there. -/
def Entries.HasKey (entries : Entries) (key : String)
    (place : Option String) : Prop :=
  ∃ table ∈ entries.tableAt? place, key ∈ table.names

instance (entries : Entries) (key : String) (place : Option String) :
    Decidable (entries.HasKey key place) :=
  inferInstanceAs
    (Decidable (∃ table ∈ entries.tableAt? place, key ∈ table.names))

theorem exists_lookup_of_tableAt? {entries below : Entries} {table : String}
    (h : entries.tableAt? (some table) = some below) :
    ∃ origin, entries.lookup table = some (.table origin below) := by
  rw [Entries.tableAt?] at h
  split at h
  · next origin known hlookup =>
      rw [Option.some.inj h] at hlookup
      exact ⟨origin, hlookup⟩
  · contradiction

theorem exists_pairLines {front : List Line} (h : sectionOf front = none) :
    ∃ pairs, front = pairLines pairs := by
  induction front with
  | nil => exact ⟨[], rfl⟩
  | cons line front ih =>
      cases line with
      | header name => simp [sectionOf] at h
      | pair key value =>
          obtain ⟨pairs, rfl⟩ := ih h
          exact ⟨(key, value) :: pairs, rfl⟩

/-- The lines of the open table are the ones behind its header. -/
theorem exists_header_pairLines {front : List Line} {table : String}
    (h : sectionOf front = some table) :
    ∃ before pairs, front = before ++ .header table :: pairLines pairs := by
  induction front with
  | nil => contradiction
  | cons line front ih =>
      cases hlater : sectionOf front with
      | none =>
          obtain ⟨pairs, rfl⟩ := exists_pairLines hlater
          cases line with
          | header name =>
              obtain rfl : name = table := by simpa [sectionOf, hlater] using h
              exact ⟨[], pairs, rfl⟩
          | pair key value =>
              rw [sectionOf, hlater] at h
              contradiction
      | some last =>
          obtain rfl : last = table := by
            cases line <;> simpa [sectionOf, hlater] using h
          obtain ⟨before, pairs, rfl⟩ := ih hlater
          exact ⟨line :: before, pairs, rfl⟩

theorem mem_names_of_lookup {entries : Entries} {key : String} {item : Item}
    (h : entries.lookup key = some item) : key ∈ entries.names := by
  by_contra hkey
  rw [lookup_eq_none_iff_names.mpr hkey] at h
  contradiction

theorem mem_names_of_fill? {pairs : List (String × Scalar)}
    {key : String} {item : Item} {later : List Statement} {old new : Entries}
    (h : fill? ((pairLines pairs).map Line.statement ++
      .pair [] key item :: later) old =
      some new) : key ∈ new.names := by
  induction pairs generalizing old with
  | nil =>
      simp only [pairLines, List.map_nil, List.nil_append, fill?,
        Option.bind_eq_bind, Option.bind_eq_some_iff] at h
      obtain ⟨mid, hmid, hnew⟩ := h
      apply (grows_fill? later mid new hnew).names
      rw [insert?, add?, Option.ite_none_left_eq_some,
        Option.some.injEq] at hmid
      simp [← hmid.2, names]
  | cons pair pairs ih =>
      simp only [pairLines, List.map_cons, List.cons_append,
        Line.statement, fill?, Option.bind_eq_bind,
        Option.bind_eq_some_iff] at h
      obtain ⟨mid, _, hnew⟩ := h
      exact ih hnew

theorem exists_sections? {front rest : List Statement} {root new : Entries}
    (h : sections? (front ++ rest) root = some new) :
    ∃ mid, sections? rest mid = some new := by
  induction front generalizing root with
  | nil => exact ⟨root, h⟩
  | cons statement front ih =>
      cases statement with
      | pair path key item => exact ih h
      | header path key | arrayHeader path key =>
          simp only [List.cons_append, sections?, Option.bind_eq_bind,
            Option.bind_eq_some_iff] at h
          obtain ⟨mid, _, hnew⟩ := h
          exact ih hnew

/-- The table of a header holds what its lines fill in. -/
theorem exists_table_of_sections? {key : String} {later : List Statement}
    {root new : Entries}
    (h : sections? (.header [] key :: later) root = some new) :
    ∃ known table origin below, fill? later known = some table ∧
      new.lookup key = some (.table origin below) ∧
      Entries.names table ⊆ Entries.names below := by
  simp only [sections?, modify?, Option.bind_eq_bind,
    Option.bind_eq_some_iff] at h
  obtain ⟨mid, hmid, hnew⟩ := h
  have hgrows := grows_sections? later mid new hnew
  -- the header makes the table, or defines one that is implied
  obtain ⟨known, table, hfill, hlookup⟩ : ∃ known table,
      fill? later known = some table ∧
      mid.lookup key = some (.table .header table) := by
    rw [define?] at hmid
    split at hmid
    · next hroot =>
        simp only [Option.bind_eq_bind, Option.bind_eq_some_iff,
          Option.some.injEq] at hmid
        obtain ⟨table, htable, rfl⟩ := hmid
        exact ⟨[], table, htable, by simp [List.lookup_append, hroot]⟩
    · next known hroot =>
        simp only [Option.bind_eq_bind, Option.bind_eq_some_iff,
          Option.some.injEq] at hmid
        obtain ⟨table, htable, rfl⟩ := hmid
        exact ⟨known, table, htable, by rw [lookup_put, if_pos rfl, hroot]; rfl⟩
    · contradiction
  obtain ⟨origin, below, hbelow, hnames⟩ :=
    hgrows.tables key .header table hlookup
  exact ⟨known, table, origin, below, hfill, hbelow, hnames⟩

theorem head_linesText_ne (e : Escaping) {lines : List Line}
    (hbare : ∀ line ∈ lines, IsBareKey line.key) {cs : List Char}
    (hcs : ∀ c ∈ cs.head?, c ≠ '\ufeff') :
    ∀ c ∈ (linesText e lines ++ cs).head?, c ≠ '\ufeff' := by
  cases lines with
  | nil => exact hcs
  | cons line lines =>
      have hopens :=
        line.opens_text e (linesText e lines ++ cs)
          (hbare line List.mem_cons_self)
      simpa [linesText] using hopens.head_ne

/-- In a document that is read, a line's key stands where the line puts it,
whatever the line holds and whatever follows it. -/
theorem hasKey_of_read? (e : Escaping) {front : List Line} {key : String}
    {kind : LineKind} {cs : List Char} {entries : Entries}
    (hbare : ∀ line ∈ front, IsBareKey line.key) (hopens : Opens key kind cs)
    (hread : read? (String.ofList (linesText e front ++ cs)) = some entries) :
    entries.HasKey key (kind.place front) := by
  rw [read?_ofList (head_linesText_ne e hbare hopens.head_ne),
    statements?_linesText e hbare] at hread
  simp only [Option.bind_eq_bind, Option.bind_eq_some_iff,
    Option.map_eq_some_iff] at hread
  obtain ⟨_, ⟨statements, hstatements, rfl⟩, root, hfill, hsections⟩ := hread
  obtain ⟨statement, later, rfl, hnames⟩ := hopens.exists_statement hstatements
  cases kind with
  | header =>
      obtain rfl : statement = .header [] key := hnames
      obtain ⟨mid, hmid⟩ := exists_sections? hsections
      obtain ⟨_, _, _, _, _, hlookup, _⟩ := exists_table_of_sections? hmid
      exact ⟨entries, rfl, mem_names_of_lookup hlookup⟩
  | pair =>
      obtain ⟨item, rfl⟩ := hnames
      cases hplace : sectionOf front with
      | none =>
          obtain ⟨pairs, rfl⟩ := exists_pairLines hplace
          rw [LineKind.place, hplace]
          exact ⟨entries, rfl,
            (grows_sections? _ root entries hsections).names
              (mem_names_of_fill? hfill)⟩
      | some table =>
          obtain ⟨before, pairs, rfl⟩ := exists_header_pairLines hplace
          rw [List.map_append, List.append_assoc] at hsections
          obtain ⟨mid, hmid⟩ := exists_sections? hsections
          obtain ⟨known, filled, origin, below, hfilled, hlookup, hsub⟩ :=
            exists_table_of_sections? hmid
          rw [LineKind.place, hplace]
          exact ⟨below, by rw [tableAt?, hlookup]; rfl,
            hsub (mem_names_of_fill? hfilled)⟩

/-! ## Documents are read as they are written -/

/-- The lines of tables, each behind its header. -/
def tableLines (tables : List (String × List (String × Scalar))) : List Line :=
  tables.flatMap fun table => .header table.1 :: pairLines table.2

def pairEntries (pairs : List (String × Scalar)) : Entries :=
  pairs.map fun pair => (pair.1, pair.2.item)

def tableEntries (tables : List (String × List (String × Scalar))) : Entries :=
  tables.map fun table => (table.1, .table .header (pairEntries table.2))

theorem names_pairEntries (pairs : List (String × Scalar)) :
    Entries.names (pairEntries pairs) = pairs.map Prod.fst := by
  simp [names, pairEntries]

/-- What a document is to hold: pairs at the top level and tables of pairs.  No
key needs quotes, and none is there twice. -/
structure Draft where
  top : List (String × Scalar)
  tables : List (String × List (String × Scalar))
  bare : ∀ line ∈ pairLines top ++ tableLines tables, IsBareKey line.key
  nodup : (top.map Prod.fst ++ tables.map Prod.fst).Nodup
  nodup_below : ∀ table ∈ tables, (table.2.map Prod.fst).Nodup

namespace Draft

def lines (d : Draft) : List Line :=
  pairLines d.top ++ tableLines d.tables

def entries (d : Draft) : Entries :=
  pairEntries d.top ++ tableEntries d.tables

end Draft

theorem add?_of_not_mem {entries : Entries} {key : String} {item : Item}
    (h : key ∉ entries.names) :
    entries.add? key item = some (entries ++ [(key, item)]) := by
  rw [add?, lookup_eq_none_iff_names.mpr h]
  rfl

theorem fill?_pairLines {pairs : List (String × Scalar)} {entries : Entries}
    (h : (entries.names ++ pairs.map Prod.fst).Nodup) (later : List Statement) :
    fill? ((pairLines pairs).map Line.statement ++ later) entries =
      fill? later (entries ++ pairEntries pairs) := by
  induction pairs generalizing entries with
  | nil => simp [pairLines, pairEntries]
  | cons pair pairs ih =>
      have hfresh : pair.1 ∉ entries.names := by
        intro hmem
        exact (List.nodup_append.mp h).2.2 _ hmem _ (by simp) rfl
      have hrest : (Entries.names (entries ++ [(pair.1, pair.2.item)]) ++
          pairs.map Prod.fst).Nodup := by
        simpa [names] using h
      have hstep := ih hrest
      simp only [pairLines, List.map_cons, List.cons_append, Line.statement,
        fill?, insert?, add?_of_not_mem hfresh, Option.bind_eq_bind,
        Option.bind_some]
      simpa [pairLines, pairEntries] using hstep

theorem fill?_tableLines (tables : List (String × List (String × Scalar)))
    (entries : Entries) :
    fill? ((tableLines tables).map Line.statement) entries = some entries := by
  cases tables <;> rfl

theorem sections?_pairLines (pairs : List (String × Scalar))
    (later : List Statement) (root : Entries) :
    sections? ((pairLines pairs).map Line.statement ++ later) root =
      sections? later root := by
  induction pairs with
  | nil => rfl
  | cons pair pairs ih => exact ih

theorem sections?_tableLines {tables : List (String × List (String × Scalar))}
    {root : Entries} (h : (root.names ++ tables.map Prod.fst).Nodup)
    (hbelow : ∀ table ∈ tables, (table.2.map Prod.fst).Nodup) :
    sections? ((tableLines tables).map Line.statement) root =
      some (root ++ tableEntries tables) := by
  induction tables generalizing root with
  | nil => simp [tableLines, tableEntries, sections?]
  | cons table tables ih =>
      have hfresh : root.lookup table.1 = none := by
        rw [lookup_eq_none_iff_names]
        intro hmem
        exact (List.nodup_append.mp h).2.2 _ hmem _ (by simp) rfl
      have hfill : fill? ((pairLines table.2).map Line.statement ++
          (tableLines tables).map Line.statement) [] =
            some (pairEntries table.2) := by
        have hpairs := hbelow table List.mem_cons_self
        rw [fill?_pairLines (by simpa [names] using hpairs),
          fill?_tableLines, List.nil_append]
      have hrest : (Entries.names
            (root ++ [(table.1, .table .header (pairEntries table.2))]) ++
          tables.map Prod.fst).Nodup := by
        simpa [names] using h
      have hlines : (tableLines (table :: tables)).map Line.statement =
          .header [] table.1 :: ((pairLines table.2).map Line.statement ++
            (tableLines tables).map Line.statement) := by
        simp [tableLines, Line.statement]
      simp only [hlines, sections?, modify?, define?, hfresh, hfill,
        Option.bind_eq_bind, Option.bind_some, sections?_pairLines]
      rw [ih hrest fun table htable =>
        hbelow table (List.mem_cons_of_mem _ htable)]
      simp [tableEntries]

theorem read?_draft (e : Escaping) (d : Draft) :
    read? (String.ofList (linesText e d.lines)) = some d.entries := by
  have hbom : ∀ c ∈ (linesText e d.lines ++ []).head?, c ≠ '\ufeff' :=
    head_linesText_ne e d.bare (by simp)
  have hstatements : statements? (linesText e d.lines) =
      some (d.lines.map Line.statement) := by
    simpa [statements?, Draft.lines] using statements?_linesText e d.bare []
  have hfill : fill? (d.lines.map Line.statement) [] =
      some (pairEntries d.top) := by
    rw [Draft.lines, List.map_append,
      fill?_pairLines (by simpa [names] using d.nodup.of_append_left),
      fill?_tableLines, List.nil_append]
  have hsections : sections? (d.lines.map Line.statement) (pairEntries d.top) =
      some d.entries := by
    rw [Draft.lines, List.map_append, sections?_pairLines,
      sections?_tableLines (by rw [names_pairEntries]; exact d.nodup)
        d.nodup_below, Draft.entries]
  rw [List.append_nil] at hbom
  rw [read?_ofList hbom, hstatements]
  simp [hfill, hsections]

end MarkupTemplate.Toml
