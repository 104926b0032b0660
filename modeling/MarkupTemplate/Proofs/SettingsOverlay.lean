/-
Settings from a document that writes some of them.  Whatever is chosen, and
however it is laid out, the settings are the defaults with the chosen fields
replaced; a key that no setting has is refused wherever it stands.
-/
import MarkupTemplate.Settings
import MarkupTemplate.Proofs.TomlDocument

namespace MarkupTemplate.Settings

open Toml

/-! ## Fields in any order -/

/-- Any two of the fields may be changed in either order. -/
def Fields.Independent {α : Type} (fields : Fields α) : Prop :=
  fields.Pairwise fun first second => ∀ i j a,
    (first.2 i a).bind (second.2 j) = (second.2 j a).bind (first.2 i)

theorem mem_of_lookup {β : Type} {entries : List (String × β)}
    {key : String} {value : β} (h : entries.lookup key = some value) :
    (key, value) ∈ entries := by
  obtain ⟨front, back, rfl, _⟩ := List.lookup_eq_some_iff.mp h
  simp

section

variable {α : Type} {fields : Fields α}

theorem Fields.Independent.bind_comm (h : fields.Independent)
    {first second : String} {change change' : Item → α → Option α}
    (hne : first ≠ second) (hfirst : fields.lookup first = some change)
    (hsecond : fields.lookup second = some change') (i j : Item) (a : α) :
    (change i a).bind (change' j) = (change' j a).bind (change i) := by
  have hsymm : Std.Symm fun first second : String × (Item → α → Option α) =>
      ∀ i j a,
        (first.2 i a).bind (second.2 j) = (second.2 j a).bind (first.2 i) :=
    ⟨fun _ _ h i j a => (h j i a).symm⟩
  have hpair : (first, change) ≠ (second, change') := fun heq =>
    hne (Prod.mk.inj heq).1
  exact List.Pairwise.forall h (mem_of_lookup hfirst)
    (mem_of_lookup hsecond) hpair i j a

theorem overlayEntries_append (front back : Entries) (a : α) :
    overlayEntries fields (front ++ back) a =
      (overlayEntries fields front a).bind (overlayEntries fields back) := by
  induction front generalizing a with
  | nil => rfl
  | cons entry front ih =>
      simp only [List.cons_append, overlayEntries, ih, Option.bind_eq_bind,
        Option.bind_assoc]

theorem overlayEntries_perm (h : fields.Independent)
    {entries entries' : Entries} (hperm : entries.Perm entries')
    (hnodup : entries.names.Nodup) (a : α) :
    overlayEntries fields entries a = overlayEntries fields entries' a := by
  induction hperm generalizing a with
  | nil => rfl
  | cons entry _ ih =>
      simp only [overlayEntries, ih (List.nodup_cons.mp hnodup).2]
  | swap first second entries =>
      have hne : second.1 ≠ first.1 := by
        intro heq
        simp [Entries.names, heq] at hnodup
      cases hfirst : fields.lookup first.1 with
      | none => simp [overlayEntries, hfirst]
      | some change =>
          cases hsecond : fields.lookup second.1 with
          | none => simp [overlayEntries, hfirst, hsecond]
          | some change' =>
              have hcomm := h.bind_comm hne hsecond hfirst second.2 first.2 a
              simp only [overlayEntries, hfirst, hsecond, Option.bind_eq_bind,
                Option.bind_some]
              rw [← Option.bind_assoc, ← Option.bind_assoc, hcomm]
  | trans hperm _ ih ih' =>
      have hmid := (hperm.map Prod.fst).nodup_iff.mp hnodup
      rw [ih hnodup, ih' hmid]

/-- Every key of a table that is taken over is the key of a field. -/
theorem exists_change_of_overlayEntries {entries : Entries} {a b : α}
    {key : String} {item : Item} (h : overlayEntries fields entries a = some b)
    (hmem : (key, item) ∈ entries) :
    ∃ change a' b', fields.lookup key = some change ∧
      change item a' = some b' := by
  induction entries generalizing a with
  | nil => contradiction
  | cons entry entries ih =>
      simp only [overlayEntries, Option.bind_eq_bind,
        Option.bind_eq_some_iff] at h
      obtain ⟨change, hchange, mid, hmid, hrest⟩ := h
      rcases List.mem_cons.mp hmem with rfl | hmem
      · exact ⟨change, a, mid, hchange, hmid⟩
      · exact ih hrest hmem

theorem mem_fields_of_overlayEntries {entries : Entries} {a b : α}
    {key : String} (h : overlayEntries fields entries a = some b)
    (hkey : key ∈ entries.names) : key ∈ fields.map Prod.fst := by
  obtain ⟨⟨_, item⟩, hmem, rfl⟩ := List.mem_map.mp hkey
  obtain ⟨change, _, _, hlookup, _⟩ := exists_change_of_overlayEntries h hmem
  exact List.mem_map.mpr ⟨_, mem_of_lookup hlookup, rfl⟩

end

/-- Two changes commute if neither sets what the other depends on. -/
theorem bind_comm_of_parts {α β γ : Type} {first : α → Option β}
    {second : α → Option γ} {set : α → β → α} {set' : α → γ → α}
    (hfirst : ∀ a c, first (set' a c) = first a)
    (hsecond : ∀ a b, second (set a b) = second a)
    (hset : ∀ a b c, set' (set a b) c = set (set' a c) b) (a : α) :
    ((first a >>= fun b => some (set a b)).bind fun a =>
        second a >>= fun c => some (set' a c)) =
      (second a >>= fun c => some (set' a c)).bind fun a =>
        first a >>= fun b => some (set a b) := by
  cases hb : first a <;> cases hc : second a <;>
    simp [hfirst, hsecond, hset, hb, hc]

theorem readingFields_independent : readingFields.Independent := by
  simp only [Fields.Independent, readingFields, List.pairwise_cons,
    List.forall_mem_cons, List.not_mem_nil, false_imp_iff, implies_true,
    List.Pairwise.nil, and_true]
  exact fun i j =>
    bind_comm_of_parts (fun _ _ => rfl) (fun _ _ => rfl) fun _ _ _ => rfl

theorem renderingFields_independent : renderingFields.Independent := by
  simp only [Fields.Independent, renderingFields, List.pairwise_cons,
    List.forall_mem_cons, List.not_mem_nil, false_imp_iff, implies_true,
    List.Pairwise.nil, and_true]
  refine ⟨⟨?_, ?_⟩, ?_⟩ <;>
    exact fun i j =>
      bind_comm_of_parts (fun _ _ => rfl) (fun _ _ => rfl) fun _ _ _ => rfl

theorem styleFields_independent : styleFields.Independent := by
  simp only [Fields.Independent, styleFields, List.pairwise_cons,
    List.forall_mem_cons, List.not_mem_nil, false_imp_iff, implies_true,
    List.Pairwise.nil, and_true]
  exact fun i j =>
    bind_comm_of_parts (fun _ _ => rfl) (fun _ _ => rfl) fun _ _ _ => rfl

/-! ## Unknown keys -/

/-- The keys that settings have at the top level, and in the table of a name. -/
def keysAt : Option String → List String
  | none => ["strict", "parser", "transform", "codegen"]
  | some "parser" => ["whitespace", "max_depth"]
  | some "transform" => ["builder", "render_function", "multi_root"]
  | some "codegen" => ["indent_width", "quote"]
  | some _ => []

/-- However it is written, a document with a key that no setting has is
refused. -/
theorem load?_of_hasKey {text : String} {entries : Entries} {key : String}
    {place : Option String} (hread : read? text = some entries)
    (hkey : entries.HasKey key place) (hunknown : key ∉ keysAt place) :
    load? text = none := by
  by_contra hload
  obtain ⟨settings, hload⟩ := Option.ne_none_iff_exists'.mp hload
  rw [load?, hread] at hload
  have hload : overlayEntries fields entries {} = some settings := hload
  obtain ⟨below, htable, hkey⟩ := hkey
  cases place with
  | none =>
      rw [← Option.some.inj htable] at hkey
      exact hunknown (mem_fields_of_overlayEntries hload hkey)
  | some table =>
      obtain ⟨origin, hlookup⟩ := exists_lookup_of_tableAt? htable
      obtain ⟨change, a, b, hchange, happly⟩ :=
        exists_change_of_overlayEntries hload (mem_of_lookup hlookup)
      have hmem := mem_of_lookup hchange
      simp only [fields, List.mem_cons, Prod.mk.injEq, List.not_mem_nil,
        or_false] at hmem
      rcases hmem with ⟨rfl, rfl⟩ | ⟨rfl, rfl⟩ | ⟨rfl, rfl⟩ | ⟨rfl, rfl⟩
      · contradiction
      -- the three tables are taken over by their own fields
      all_goals
        simp only [overlay, Option.bind_eq_bind,
          Option.bind_eq_some_iff] at happly
        obtain ⟨part, hpart, _⟩ := happly
        exact hunknown (mem_fields_of_overlayEntries hpart hkey)

/-! ## Chosen settings -/

/-- A choice of settings.  What is not chosen keeps its default. -/
structure Overrides where
  strict : Option Bool := none
  whitespace : Option Whitespace := none
  maxDepth : Option (Fin integerBound) := none
  builder : Option String := none
  renderFunction : Option String := none
  multiRoot : Option MultiRoot := none
  indentWidth : Option (Fin integerBound) := none
  quote : Option Quote := none

inductive Section where
  | parser
  | transform
  | codegen
  deriving DecidableEq

def Section.name : Section → String
  | parser => "parser"
  | transform => "transform"
  | codegen => "codegen"

def Section.change (entries : Entries) (s : Settings) (t : Section) :
    Option Settings :=
  overlayEntries fields [(t.name, .table .header entries)] s

theorem Section.change_perm (t : Section) {entries entries' : Entries}
    (hperm : entries.Perm entries') (hnodup : entries.names.Nodup)
    (s : Settings) : t.change entries s = t.change entries' s := by
  have hitem : ∀ change, fields.lookup t.name = some change →
      change (.table .header entries) s =
          change (.table .header entries') s := by
    intro change hchange
    cases t with
    | parser =>
        obtain rfl := Option.some.inj hchange
        simp only [overlay,
          overlayEntries_perm readingFields_independent hperm hnodup]
    | transform =>
        obtain rfl := Option.some.inj hchange
        simp only [overlay,
          overlayEntries_perm renderingFields_independent hperm hnodup]
    | codegen =>
        obtain rfl := Option.some.inj hchange
        simp only [overlay,
          overlayEntries_perm styleFields_independent hperm hnodup]
  simp only [change, overlayEntries]
  cases hlookup : fields.lookup t.name with
  | none => rfl
  | some change =>
      simp only [Option.bind_eq_bind, Option.bind_some, hitem change hlookup]

def whitespaceName : Whitespace → String
  | .preserve => "preserve"
  | .condense => "condense"

def multiRootName : MultiRoot → String
  | .firstOnly => "first-only"
  | .array => "array"

def quoteName : Quote → String
  | .single => "single"
  | .double => "double"

/-- The pair of a key, if a value is chosen for it. -/
def chosen {β : Type} (key : String) (scalar : β → Scalar) (value : Option β) :
    List (String × Scalar) :=
  (value.map fun value => (key, scalar value)).toList

theorem keys_chosen_sublist {β : Type} (key : String) (scalar : β → Scalar)
    (value : Option β) :
    ((chosen key scalar value).map Prod.fst).Sublist [key] := by
  cases value <;> simp [chosen]

namespace Overrides

variable (o : Overrides)

def top : List (String × Scalar) :=
  chosen "strict" .boolean o.strict

def pairs : Section → List (String × Scalar)
  | .parser =>
      chosen "whitespace" (fun w => .string (whitespaceName w)) o.whitespace ++
        chosen "max_depth" .integer o.maxDepth
  | .transform =>
      chosen "builder" .string o.builder ++
        chosen "render_function" .string o.renderFunction ++
        chosen "multi_root" (fun m => .string (multiRootName m)) o.multiRoot
  | .codegen =>
      chosen "indent_width" .integer o.indentWidth ++
        chosen "quote" (fun q => .string (quoteName q)) o.quote

/-- Settings with the chosen fields replaced. -/
def apply (s : Settings) : Settings where
  reading :=
    { whitespace := o.whitespace.getD s.reading.whitespace
      maxDepth := (o.maxDepth.map Fin.val).getD s.reading.maxDepth }
  rendering :=
    { builder := o.builder.getD s.rendering.builder
      renderFunction := o.renderFunction.getD s.rendering.renderFunction
      multiRoot := o.multiRoot.getD s.rendering.multiRoot }
  style :=
    { indentWidth := (o.indentWidth.map Fin.val).getD s.style.indentWidth
      quote := o.quote.getD s.style.quote }
  strict := o.strict.getD s.strict

def part (s : Settings) : Section → Settings
  | .parser => { s with reading := (o.apply s).reading }
  | .transform => { s with rendering := (o.apply s).rendering }
  | .codegen => { s with style := (o.apply s).style }

/-- A way to write what is chosen: the tables in any order, each with its pairs
in any order.  A table with nothing chosen in it may be left out. -/
structure Layout where
  order : List Section
  nodup : order.Nodup
  complete : ∀ s, o.pairs s ≠ [] → s ∈ order
  pairs : Section → List (String × Scalar)
  perm : ∀ s, (pairs s).Perm (o.pairs s)

theorem keys_pairs_sublist (s : Section) :
    ((o.pairs s).map Prod.fst).Sublist (keysAt (some s.name)) := by
  cases s with
  | parser =>
      rw [pairs, List.map_append]
      exact (keys_chosen_sublist ..).append (keys_chosen_sublist ..)
  | transform =>
      rw [pairs, List.map_append, List.map_append]
      exact ((keys_chosen_sublist ..).append (keys_chosen_sublist ..)).append
        (keys_chosen_sublist ..)
  | codegen =>
      rw [pairs, List.map_append]
      exact (keys_chosen_sublist ..).append (keys_chosen_sublist ..)

theorem mem_keysAt_of_mem_top {pair : String × Scalar} (h : pair ∈ o.top) :
    pair.1 ∈ keysAt none := by
  have hkey : pair.1 ∈ ["strict"] :=
    (keys_chosen_sublist ..).subset (List.mem_map_of_mem h)
  simp [keysAt, List.mem_singleton.mp hkey]

theorem overlay_top (s : Settings) :
    overlayEntries fields (pairEntries o.top) s =
      some { s with strict := (o.apply s).strict } := by
  rcases o with ⟨_ | strict, _⟩ <;> rfl

theorem change_pairs (t : Section) (s : Settings) :
    t.change (pairEntries (o.pairs t)) s = some (o.part s t) := by
  cases t with
  | parser => rcases o with ⟨_, _ | _ | _, _ | maxDepth, _⟩ <;> rfl
  | transform =>
      rcases o with ⟨_, _, _, _ | builder, _ | renderFunction,
        _ | _ | _, _⟩ <;> rfl
  | codegen =>
      rcases o with ⟨_, _, _, _, _, _, _ | indentWidth, _ | _ | _⟩ <;> rfl

theorem part_of_pairs_eq_nil {t : Section} (h : o.pairs t = []) (s : Settings) :
    o.part s t = s := by
  have hchange := o.change_pairs t s
  rw [h] at hchange
  have hnone : t.change [] s = some s := by cases t <;> rfl
  exact Option.some.inj (hchange.symm.trans hnone)

end Overrides

/-! ## Layouts -/

theorem isBareKey_of_mem_keysAt {place : Option String} {key : String}
    (h : key ∈ keysAt place) : IsBareKey key := by
  revert key
  unfold keysAt
  split <;> simp [IsBareKey, isBareKeyChar]

theorem Section.name_injective : Function.Injective Section.name := by
  intro s t h
  cases s <;> cases t <;> simp_all [Section.name]

theorem Section.name_mem (s : Section) :
    s.name ∈ keysAt none ∧ s.name ≠ "strict" := by
  cases s <;> simp [Section.name, keysAt]

namespace Overrides.Layout

variable {o : Overrides} (l : o.Layout)

def tables (sections : List Section) : List (String × List (String × Scalar)) :=
  sections.map fun s => (s.name, l.pairs s)

theorem nodup_keys_pairs (s : Section) : ((l.pairs s).map Prod.fst).Nodup := by
  have hkeys : (keysAt (some s.name)).Nodup := by cases s <;> decide
  exact ((l.perm s).map Prod.fst).nodup_iff.mpr
    (hkeys.sublist (o.keys_pairs_sublist s))

theorem mem_keysAt_of_mem_pairs {s : Section} {pair : String × Scalar}
    (h : pair ∈ l.pairs s) : pair.1 ∈ keysAt (some s.name) :=
  (o.keys_pairs_sublist s).subset
    (List.mem_map_of_mem ((l.perm s).mem_iff.mp h))

theorem isBareKey_of_mem_lines :
    ∀ line ∈ pairLines o.top ++ tableLines (l.tables l.order),
      IsBareKey line.key := by
  have hname : ∀ s : Section, IsBareKey s.name := fun s =>
    isBareKey_of_mem_keysAt s.name_mem.1
  have hpair : ∀ s, ∀ pair ∈ l.pairs s, IsBareKey pair.1 := fun s pair hpair =>
    isBareKey_of_mem_keysAt (l.mem_keysAt_of_mem_pairs hpair)
  have htop : ∀ pair ∈ o.top, IsBareKey pair.1 := fun pair hpair =>
    isBareKey_of_mem_keysAt (o.mem_keysAt_of_mem_top hpair)
  intro line hline
  simp only [pairLines, tableLines, tables, List.mem_append, List.mem_map,
    List.mem_flatMap, List.mem_cons] at hline
  rcases hline with ⟨pair, hmem, rfl⟩ |
    ⟨_, ⟨s, _, rfl⟩, rfl | ⟨pair, hmem, rfl⟩⟩
  · exact htop pair hmem
  · exact hname s
  · exact hpair s pair hmem

theorem nodup_keys :
    (o.top.map Prod.fst ++ (l.tables l.order).map Prod.fst).Nodup := by
  have hnames : (l.tables l.order).map Prod.fst = l.order.map Section.name := by
    simp [tables]
  rw [hnames, List.nodup_append]
  refine ⟨(List.nodup_singleton "strict").sublist (keys_chosen_sublist ..),
    l.nodup.map Section.name_injective, ?_⟩
  intro key hkey name hname
  obtain ⟨s, _, rfl⟩ := List.mem_map.mp hname
  rw [List.mem_singleton.mp ((keys_chosen_sublist ..).subset hkey)]
  exact s.name_mem.2.symm

/-- What the document is to hold. -/
def draft : Draft where
  top := o.top
  tables := l.tables l.order
  bare := l.isBareKey_of_mem_lines
  nodup := l.nodup_keys
  nodup_below := by
    simp only [tables, List.mem_map]
    rintro _ ⟨s, _, rfl⟩
    exact l.nodup_keys_pairs s

def lines : List Toml.Line :=
  l.draft.lines

theorem change_pairs (t : Section) (s : Settings) :
    t.change (pairEntries (l.pairs t)) s = some (o.part s t) := by
  have hperm : (pairEntries (l.pairs t)).Perm (pairEntries (o.pairs t)) :=
    (l.perm t).map _
  have hnodup : (Entries.names (pairEntries (l.pairs t))).Nodup := by
    rw [names_pairEntries]
    exact l.nodup_keys_pairs t
  rw [t.change_perm hperm hnodup, o.change_pairs]

theorem overlay_tables (sections : List Section) (s : Settings) :
    overlayEntries fields (tableEntries (l.tables sections)) s =
      some (sections.foldl o.part s) := by
  induction sections generalizing s with
  | nil => rfl
  | cons t sections ih =>
      have hcons : tableEntries (l.tables (t :: sections)) =
          [(t.name, .table .header (pairEntries (l.pairs t)))] ++
            tableEntries (l.tables sections) := rfl
      rw [hcons, overlayEntries_append, ← Section.change, l.change_pairs,
        Option.bind_some, ih, List.foldl_cons]

/-- The tables may stand in any order, and one without pairs may be missing. -/
theorem foldl_part_order (s : Settings) :
    l.order.foldl o.part s =
      [Section.parser, .transform, .codegen].foldl o.part s := by
  -- nothing is chosen in a table that is left out, so it may as well stand at
  -- the end
  let missing := [Section.parser, .transform, .codegen].filter (· ∉ l.order)
  have hmissing : ∀ s, missing.foldl o.part s = s := by
    intro s
    have hpart : ∀ s, ∀ t ∈ missing, o.part s t = s := by
      intro s t ht
      have horder : t ∉ l.order := by simpa using (List.mem_filter.mp ht).2
      exact o.part_of_pairs_eq_nil
        (by_contra fun hne => horder (l.complete t hne)) s
    rw [List.foldl_ext _ (fun s _ => s) s hpart, List.foldl_fixed]
  have hperm :
      (l.order ++ missing).Perm [Section.parser, .transform, .codegen] := by
    rw [List.perm_ext_iff_of_nodup]
    · intro t
      cases t <;> simp [missing, Decidable.em]
    · rw [List.nodup_append]
      refine ⟨l.nodup, List.Nodup.filter _ (by decide), fun t ht u hu heq => ?_⟩
      simp_all [missing]
    · decide
  calc l.order.foldl o.part s
      = (l.order ++ missing).foldl o.part s := by
        rw [List.foldl_append, hmissing]
    _ = [Section.parser, .transform, .codegen].foldl o.part s := by
        apply hperm.foldl_eq'
        intro t _ u _ s
        cases t <;> cases u <;> rfl

theorem overlay_entries (s : Settings) :
    overlayEntries fields l.draft.entries s = some (o.apply s) := by
  have hentries : l.draft.entries =
      pairEntries o.top ++ tableEntries (l.tables l.order) := rfl
  rw [hentries, overlayEntries_append, o.overlay_top, Option.bind_some,
    l.overlay_tables, l.foldl_part_order]
  rfl

end Overrides.Layout

/-- A document that writes chosen settings, however it is laid out, gives the
defaults with these fields replaced.  A line with a key that no setting has
makes it an error at any place in such a document, and so does such a key in any
other document. -/
theorem load?_overlays (o : Overrides) (l : o.Layout) (e : Escaping) :
    load? (String.ofList (linesText e l.lines)) = some (o.apply {}) ∧
      (∀ front back key kind extra, l.lines = front ++ back →
        Opens key kind extra →
        key ∉ keysAt (kind.place front) →
          load?
            (String.ofList (linesText e front ++ extra ++ linesText e back)) =
              none) ∧
      ∀ text entries key place, read? text = some entries →
        entries.HasKey key place →
        key ∉ keysAt place → load? text = none := by
  refine ⟨?_, ?_, fun _ _ _ _ => load?_of_hasKey⟩
  · rw [load?, Overrides.Layout.lines, read?_draft]
    exact l.overlay_entries {}
  · intro front back key kind extra hlines hopens hunknown
    have hbare : ∀ line ∈ front, IsBareKey line.key := by
      intro line hline
      have hmem : line ∈ l.lines := by
        rw [hlines]
        exact List.mem_append_left back hline
      exact l.draft.bare line hmem
    rw [List.append_assoc]
    -- the line may spoil the document; if it does not, its key is in the table
    cases hread : read?
      (String.ofList (linesText e front ++ (extra ++ linesText e back))) with
    | none => rw [load?, hread]; rfl
    | some entries =>
        exact load?_of_hasKey hread
          (hasKey_of_read? e hbare (hopens.append _) hread) hunknown

/-- A choice with values at their limits and a text that needs escapes. -/
def limitOverrides : Overrides where
  strict := some true
  builder := some "\n\"é"
  indentWidth := some ⟨9223372036854775807, by decide⟩
  quote := some .double

/-- The tables and the pairs of one of them in the opposite order. -/
def limitLayout : limitOverrides.Layout where
  order := [.codegen, .transform]
  nodup := by decide
  complete s h := by
    cases s <;> simp_all [limitOverrides, Overrides.pairs, chosen]
  pairs s := (limitOverrides.pairs s).reverse
  perm s := List.reverse_perm _

theorem load?_overlays_limits :
    load?
      ("strict = true\n[codegen]\nquote = \"double\"\n" ++
        "indent_width = 9223372036854775807\n" ++
        "[transform]\nbuilder = \"\\u000a\\u0022é\"\n") =
        some {
          strict := true
          rendering := { builder := "\n\"é" }
          style := { indentWidth := 9223372036854775807, quote := .double } } ∧
      load?
        ("strict = true\n[codegen]\nquote = \"double\"\n\t'max depth' = 1\n" ++
          "indent_width = 9223372036854775807\n" ++
          "[transform]\nbuilder = \"\\u000a\\u0022é\"\n") =
        none ∧
      load? "parser.depth = 1\n" = none := by
  obtain ⟨hload, hextra, hunknown⟩ :=
    load?_overlays limitOverrides limitLayout Escaping.standard
  have htext : String.ofList (linesText Escaping.standard limitLayout.lines) =
      "strict = true\n[codegen]\nquote = \"double\"\n" ++
        "indent_width = 9223372036854775807\n" ++
        "[transform]\nbuilder = \"\\u000a\\u0022é\"\n" := by
    decide +kernel
  have hopens : Opens "max depth" .pair
      (['\t'] ++ ('\'' :: ("max depth".toList ++ ['\'']) ++ [' ']) ++
        '=' :: " 1\n".toList) :=
    .pair (.mk (by simp [isWs])
      (.literal (by simp [isLiteralChar, isCommentChar])) (by simp [isWs])) _
  obtain ⟨entries, hread, hkey⟩ : ∃ entries ∈ read? "parser.depth = 1\n",
      entries.HasKey "depth" (some "parser") := by
    decide +kernel
  refine ⟨?_, ?_, hunknown _ entries _ _ hread hkey (by decide)⟩
  · rw [← htext, hload]
    rfl
  · have hnone :=
      hextra (limitLayout.lines.take 3) (limitLayout.lines.drop 3) _ _ _
      (List.take_append_drop 3 _).symm hopens (by decide)
    refine (congrArg load? ?_).trans hnone
    decide +kernel

end MarkupTemplate.Settings
