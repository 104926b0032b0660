/-
Expressions whose names and strings need no escape can be told apart by their
texts.  A text is decoded from the front: the longest run of characters that
may stand in a name and the character behind it tell what the expression is,
and what may follow an expression never goes on with it.
-/
import MarkupTemplate.Proofs.Token
import MarkupTemplate.Proofs.Rendering

namespace MarkupTemplate

/-- The characters that the text around names is made of. -/
def Style.delimiters (style : Style) : List Char :=
  [' ', '\n', style.quote.char, ',', '(', ')', '[', ']', '{', '}']

/-- Some characters, and none that could end a name. -/
def Style.isPlainName (style : Style) (name : String) : Bool :=
  name != "" && name.toList.all fun c => !style.delimiters.contains c

namespace Expr

mutual

/-- Whether names and strings can be written as they are: names are plain, and
no string holds the quote that ends it. -/
def isPlain (style : Style) : Expr → Bool
  | function name params body =>
      style.isPlainName name && allPlain style params && allPlain style body
  | returned argument => isPlain style argument
  | call callee arguments =>
      style.isPlainName callee && allPlain style arguments
  | string value => !value.toList.contains style.quote.char
  | identifier name => style.isPlainName name
  | array elements => allPlain style elements

def allPlain (style : Style) : List Expr → Bool
  | [] => true
  | e :: es => isPlain style e && allPlain style es

end

/-- The name or keyword that the text of an expression begins with. -/
def word : Expr → String
  | function .. => "function"
  | returned _ => "return"
  | call callee _ => callee
  | identifier name => name
  | _ => ""

def behindWord (style : Style) (level : Nat) : Expr → List Char
  | function name params body =>
      ' ' :: (name.toList ++
        '(' :: ((renderList style level params).toList ++ ')' :: ' ' :: '{' ::
          ((renderLines style (level + 1) body).toList ++
            ((style.lineStart level).toList ++ ['}']))))
  | returned argument => ' ' :: (render style level argument).toList
  | call _ arguments =>
      '(' :: ((renderList style level arguments).toList ++ [')'])
  | string value => style.quote.char :: (value.toList ++ [style.quote.char])
  | identifier _ => []
  | array elements => '[' :: ((renderList style level elements).toList ++ [']'])

theorem toList_render (style : Style) (level : Nat) (e : Expr) :
    (e.render style level).toList =
      e.word.toList ++ e.behindWord style level := by
  cases e <;> simp [render, word, behindWord, Style.toList_quoted]

end Expr

/-- What may follow an expression: nothing, or a character that ends it. -/
def EndsExpr (rest : List Char) : Prop :=
  ∀ c ∈ rest.head?, c ∈ [',', ')', ']', '\n']

theorem endsExpr_cons {c : Char} {rest : List Char} :
    EndsExpr (c :: rest) ↔ c ∈ [',', ')', ']', '\n'] := by
  simp [EndsExpr]

namespace Style

variable {style : Style}

theorem isPlainName_iff {name : String} :
    style.isPlainName name = true ↔
      name ≠ "" ∧ ∀ c ∈ name.toList, (!style.delimiters.contains c) = true := by
  simp [isPlainName, List.all_eq_true]

theorem cancel_name {name name' : String} {rest rest' : List Char}
    (hname : style.isPlainName name = true)
    (hname' : style.isPlainName name' = true)
    (h : name.toList ++ '(' :: rest = name'.toList ++ '(' :: rest') :
    name = name' ∧ rest = rest' := by
  obtain ⟨hsame, hrest⟩ :=
    cancel_run (isPlainName_iff.mp hname).2 (isPlainName_iff.mp hname').2
    (by simp [delimiters]) (by simp [delimiters]) h
  exact ⟨String.toList_inj.mp hsame, (List.cons.inj hrest).2⟩

/-- A string ends with the first quote. -/
theorem cancel_string {value value' : String} {rest rest' : List Char}
    (hvalue : style.quote.char ∉ value.toList)
    (hvalue' : style.quote.char ∉ value'.toList)
    (h : value.toList ++ style.quote.char :: rest =
      value'.toList ++ style.quote.char :: rest') :
    value = value' ∧ rest = rest' := by
  obtain ⟨hsame, hrest⟩ := cancel_run (p := (· != style.quote.char))
    (fun c hc => bne_iff_ne.mpr (ne_of_mem_of_not_mem hc hvalue))
    (fun c hc => bne_iff_ne.mpr (ne_of_mem_of_not_mem hc hvalue'))
    (by simp) (by simp) h
  exact ⟨String.toList_inj.mp hsame, (List.cons.inj hrest).2⟩

/-- Indented lines that begin with the same text do so behind the same
indentation. -/
theorem cancel_lineStart {level level' : Nat} {rest rest' : List Char}
    (hrest : ∀ c ∈ rest.head?, c ≠ ' ') (hrest' : ∀ c ∈ rest'.head?, c ≠ ' ')
    (h : (style.lineStart level).toList ++ rest =
      (style.lineStart level').toList ++ rest') :
    rest = rest' := by
  simp only [toList_lineStart, List.cons_append, List.cons.injEq, true_and] at h
  exact (cancel_run (p := (· == ' ')) (by simp) (by simp) (by simpa using hrest)
    (by simpa using hrest') h).2

theorem mem_delimiters_of_endsExpr {rest : List Char} (h : EndsExpr rest) :
    ∀ c ∈ rest.head?, c ∈ style.delimiters := by
  intro c hc
  have hmem := h c hc
  simp only [List.mem_cons, List.not_mem_nil, or_false] at hmem
  rcases hmem with rfl | rfl | rfl | rfl <;> simp [delimiters]

end Style

namespace Expr

variable {style : Style} {level : Nat} {a b e : Expr} {u v : List Char}

theorem word_plain (h : e.isPlain style = true) :
    ∀ c ∈ e.word.toList, (!style.delimiters.contains c) = true := by
  cases e with
  | function =>
      cases hquote : style.quote <;>
        simp [word, Style.delimiters, hquote, Quote.char]
  | returned =>
      cases hquote : style.quote <;>
        simp [word, Style.delimiters, hquote, Quote.char]
  | call callee arguments =>
      simp only [isPlain, Bool.and_eq_true] at h
      exact (Style.isPlainName_iff.mp h.1).2
  | identifier name => exact (Style.isPlainName_iff.mp h).2
  | string => simp [word]
  | array => simp [word]

theorem head_behindWord (hu : EndsExpr u) :
    ∀ c ∈ (e.behindWord style level ++ u).head?, c ∈ style.delimiters := by
  cases e with
  | identifier => exact Style.mem_delimiters_of_endsExpr hu
  | _ => simp [behindWord, Style.delimiters]

/-- What an expression is, as told by its word and the character behind it. -/
def typeNameOf (style : Style) (word : String)
    (behind : Option Char) : String :=
  if behind = some ' ' then
    if word = "function" then "FunctionDeclaration" else "ReturnStatement"
  else if behind = some '(' then "CallExpression"
  else if behind = some '[' then "ArrayExpression"
  else if behind = some style.quote.char then "StringLiteral"
  else "Identifier"

theorem typeNameOf_word (style : Style) (level : Nat) (e : Expr)
    (hu : EndsExpr u) :
    typeNameOf style e.word (e.behindWord style level ++ u).head? =
      e.typeName := by
  cases e with
  | string =>
      cases hquote : style.quote <;>
        simp [typeNameOf, behindWord, hquote, Quote.char, typeName]
  | identifier name =>
      cases u with
      | nil => simp [typeNameOf, behindWord, typeName]
      | cons c u =>
          have hmem := endsExpr_cons.mp hu
          simp only [List.mem_cons, List.not_mem_nil, or_false] at hmem
          rcases hmem with rfl | rfl | rfl | rfl <;>
            cases hquote : style.quote <;>
            simp [typeNameOf, behindWord, hquote, Quote.char, typeName]
  | _ => simp [typeNameOf, word, behindWord, typeName]

/-- Texts that agree agree in their words and in what is behind them, and are
texts of the same sort of expression. -/
theorem cancel_word (ha : a.isPlain style = true) (hb : b.isPlain style = true)
    (hu : EndsExpr u) (hv : EndsExpr v)
    (h : (a.render style level).toList ++ u =
      (b.render style level).toList ++ v) :
    a.typeName = b.typeName ∧ a.word = b.word ∧
      a.behindWord style level ++ u = b.behindWord style level ++ v := by
  rw [toList_render, toList_render, List.append_assoc, List.append_assoc] at h
  obtain ⟨hword, hbehind⟩ := cancel_run (word_plain ha) (word_plain hb)
    (by simpa using head_behindWord hu) (by simpa using head_behindWord hv) h
  have hsame := String.toList_inj.mp hword
  refine ⟨?_, hsame, hbehind⟩
  rw [← typeNameOf_word style level a hu, hsame, hbehind,
    typeNameOf_word style level b hv]

/-- The text of an expression begins with a character that ends no list, line
or function. -/
theorem exists_first (level : Nat) (h : e.isPlain style = true) :
    ∃ c more, (e.render style level).toList = c :: more ∧
      c ∉ [',', ')', ']', '}', ' ', '\n'] := by
  rw [toList_render]
  cases hword : e.word.toList with
  | cons c more =>
      have hplain := word_plain h c (by simp [hword])
      refine ⟨c, more ++ e.behindWord style level, rfl, ?_⟩
      simp only [Style.delimiters, Bool.not_eq_true', List.contains_eq_mem,
        decide_eq_false_iff_not, List.mem_cons, List.not_mem_nil, or_false,
        not_or] at hplain ⊢
      simp [hplain]
  | nil =>
      have hempty : e.word = "" := by simpa using hword
      cases e with
      | function => simp [word] at hempty
      | returned => simp [word] at hempty
      | call callee _ =>
          simp only [isPlain, Bool.and_eq_true] at h
          exact absurd hempty (Style.isPlainName_iff.mp h.1).1
      | identifier name => exact absurd hempty (Style.isPlainName_iff.mp h).1
      | string value =>
          refine ⟨style.quote.char, value.toList ++ [style.quote.char], rfl, ?_⟩
          cases style.quote <;> simp [Quote.char]
      | array elements => exact ⟨'[', _, rfl, by simp⟩

theorem renderList_cons_ne (h : e.isPlain style = true) (es : List Expr)
    {close : Char} (hclose : close ∈ [')', ']']) :
    (renderList style level (e :: es)).toList ++ u ≠ close :: v := by
  obtain ⟨c, more, htext, hc⟩ := exists_first level h
  intro heq
  simp only [renderList, String.toList_append, htext, List.cons_append,
    List.cons.injEq] at heq
  rw [heq.1] at hc
  simp only [List.mem_cons, List.not_mem_nil, or_false] at hclose
  rcases hclose with rfl | rfl <;> simp at hc

/-- Where a function ends, no statement of it begins. -/
theorem renderLines_cons_ne (h : e.isPlain style = true) (es : List Expr) :
    (renderLines style (level + 1) (e :: es)).toList ++ u ≠
      (style.lineStart level).toList ++ '}' :: v := by
  obtain ⟨c, more, htext, hc⟩ := exists_first (level + 1) h
  simp only [List.mem_cons, List.not_mem_nil, or_false, not_or] at hc
  intro heq
  rw [renderLines, String.toList_append, String.toList_append, htext,
    List.append_assoc, List.append_assoc] at heq
  have hfirst := Style.cancel_lineStart (by simp [hc]) (by simp) heq
  simp [hc] at hfirst

theorem endsExpr_renderMore (es : List Expr) {close : Char}
    (hclose : close ∈ [')', ']']) :
    EndsExpr ((renderMore style level es).toList ++ close :: u) := by
  cases es with
  | nil =>
      simp only [renderMore, String.toList_empty, List.nil_append,
        endsExpr_cons]
      exact List.mem_cons_of_mem _ (List.mem_append_left ['\n'] hclose)
  | cons e es => simp [renderMore, EndsExpr]

theorem endsExpr_renderLines (es : List Expr) (outer : Nat) :
    EndsExpr ((renderLines style level es).toList ++
      ((style.lineStart outer).toList ++ u)) := by
  cases es <;> simp [renderLines, EndsExpr, Style.toList_lineStart]

mutual

/-- The text of an expression is told from whatever follows it. -/
theorem render_cancel (style : Style) :
    ∀ (a : Expr) {b : Expr} {level : Nat} {u v : List Char},
      a.isPlain style = true →
      b.isPlain style = true → EndsExpr u → EndsExpr v →
      (a.render style level).toList ++ u = (b.render style level).toList ++ v →
      a = b ∧ u = v
  | function name params body, b, level, u, v, ha, hb, hu, hv, h => by
      obtain ⟨hkind, _, hbehind⟩ := cancel_word ha hb hu hv h
      cases b with
      | function name' params' body' =>
          simp only [isPlain, Bool.and_eq_true] at ha hb
          simp only [behindWord, List.cons_append, List.append_assoc,
            List.cons.injEq, true_and] at hbehind
          obtain ⟨rfl, hparams⟩ := Style.cancel_name ha.1.1 hb.1.1 hbehind
          obtain ⟨rfl, hbody⟩ :=
            renderList_cancel style params ha.1.2 hb.1.2 (by simp) hparams
          simp only [List.cons.injEq, true_and] at hbody
          obtain ⟨rfl, hrest⟩ := renderLines_cancel style body ha.2 hb.2 hbody
          exact ⟨rfl, hrest⟩
      | _ => simp [typeName] at hkind
  | returned argument, b, level, u, v, ha, hb, hu, hv, h => by
      obtain ⟨hkind, _, hbehind⟩ := cancel_word ha hb hu hv h
      cases b with
      | returned argument' =>
          simp only [behindWord, List.cons_append, List.cons.injEq,
            true_and] at hbehind
          obtain ⟨rfl, hrest⟩ :=
            render_cancel style argument (b := argument') ha hb hu hv hbehind
          exact ⟨rfl, hrest⟩
      | _ => simp [typeName] at hkind
  | call callee arguments, b, level, u, v, ha, hb, hu, hv, h => by
      obtain ⟨hkind, hword, hbehind⟩ := cancel_word ha hb hu hv h
      cases b with
      | call callee' arguments' =>
          simp only [isPlain, Bool.and_eq_true] at ha hb
          simp only [behindWord, List.cons_append, List.append_assoc,
            List.nil_append, List.cons.injEq, true_and] at hbehind
          obtain ⟨rfl, hrest⟩ :=
            renderList_cancel style arguments ha.2 hb.2 (by simp) hbehind
          rw [show callee = callee' from hword]
          exact ⟨rfl, hrest⟩
      | _ => simp [typeName] at hkind
  | string value, b, level, u, v, ha, hb, hu, hv, h => by
      obtain ⟨hkind, _, hbehind⟩ := cancel_word ha hb hu hv h
      cases b with
      | string value' =>
          simp only [behindWord, List.cons_append, List.append_assoc,
            List.nil_append, List.cons.injEq, true_and] at hbehind
          obtain ⟨rfl, hrest⟩ :=
            Style.cancel_string (by simpa [isPlain] using ha)
            (by simpa [isPlain] using hb) hbehind
          exact ⟨rfl, hrest⟩
      | _ => simp [typeName] at hkind
  | identifier name, b, level, u, v, ha, hb, hu, hv, h => by
      obtain ⟨hkind, hword, hbehind⟩ := cancel_word ha hb hu hv h
      cases b with
      | identifier name' =>
          rw [show name = name' from hword]
          exact ⟨rfl, hbehind⟩
      | _ => simp [typeName] at hkind
  | array elements, b, level, u, v, ha, hb, hu, hv, h => by
      obtain ⟨hkind, _, hbehind⟩ := cancel_word ha hb hu hv h
      cases b with
      | array elements' =>
          simp only [behindWord, List.cons_append, List.append_assoc,
            List.nil_append, List.cons.injEq, true_and] at hbehind
          obtain ⟨rfl, hrest⟩ :=
            renderList_cancel style elements ha hb (by simp) hbehind
          exact ⟨rfl, hrest⟩
      | _ => simp [typeName] at hkind

theorem renderList_cancel (style : Style) :
    ∀ (as : List Expr) {bs : List Expr} {level : Nat} {close : Char}
      {u v : List Char},
      allPlain style as = true → allPlain style bs = true → close ∈ [')', ']'] →
      (renderList style level as).toList ++ close :: u =
        (renderList style level bs).toList ++ close :: v → as = bs ∧ u = v
  | [], [], _, _, _, _, _, _, _, h => by simpa [renderList] using h
  | [], b :: bs, _, _, _, _, _, hbs, hclose, h => by
      simp only [allPlain, Bool.and_eq_true] at hbs
      exact absurd h.symm (renderList_cons_ne hbs.1 bs hclose)
  | a :: as, [], _, _, _, _, has, _, hclose, h => by
      simp only [allPlain, Bool.and_eq_true] at has
      exact absurd h (renderList_cons_ne has.1 as hclose)
  | a :: as, b :: bs, level, close, u, v, has, hbs, hclose, h => by
      simp only [allPlain, Bool.and_eq_true] at has hbs
      simp only [renderList, String.toList_append, List.append_assoc] at h
      obtain ⟨rfl, hmore⟩ := render_cancel style a has.1 hbs.1
        (endsExpr_renderMore as hclose) (endsExpr_renderMore bs hclose) h
      obtain ⟨rfl, hrest⟩ := renderMore_cancel style as has.2 hbs.2 hclose hmore
      exact ⟨rfl, hrest⟩

theorem renderMore_cancel (style : Style) :
    ∀ (as : List Expr) {bs : List Expr} {level : Nat} {close : Char}
      {u v : List Char},
      allPlain style as = true → allPlain style bs = true → close ∈ [')', ']'] →
      (renderMore style level as).toList ++ close :: u =
        (renderMore style level bs).toList ++ close :: v → as = bs ∧ u = v
  | [], [], _, _, _, _, _, _, _, h => by simpa [renderMore] using h
  | [], b :: bs, _, _, _, _, _, _, hclose, h => by
      simp only [renderMore, String.toList_append] at h
      simp only [List.mem_cons, List.not_mem_nil, or_false] at hclose
      rcases hclose with rfl | rfl <;> simp at h
  | a :: as, [], _, _, _, _, _, _, hclose, h => by
      simp only [renderMore, String.toList_append] at h
      simp only [List.mem_cons, List.not_mem_nil, or_false] at hclose
      rcases hclose with rfl | rfl <;> simp at h
  | a :: as, b :: bs, level, close, u, v, has, hbs, hclose, h => by
      simp only [allPlain, Bool.and_eq_true] at has hbs
      simp only [renderMore, String.toList_append, List.append_assoc,
        List.append_cancel_left_eq] at h
      obtain ⟨rfl, hmore⟩ := render_cancel style a has.1 hbs.1
        (endsExpr_renderMore as hclose) (endsExpr_renderMore bs hclose) h
      obtain ⟨rfl, hrest⟩ := renderMore_cancel style as has.2 hbs.2 hclose hmore
      exact ⟨rfl, hrest⟩

theorem renderLines_cancel (style : Style) :
    ∀ (as : List Expr) {bs : List Expr} {level : Nat} {u v : List Char},
      allPlain style as = true → allPlain style bs = true →
      (renderLines style (level + 1) as).toList ++
          ((style.lineStart level).toList ++ '}' :: u) =
        (renderLines style (level + 1) bs).toList ++
          ((style.lineStart level).toList ++ '}' :: v) → as = bs ∧ u = v
  | [], [], _, _, _, _, _, h => by simpa [renderLines] using h
  | [], b :: bs, _, _, _, _, hbs, h => by
      simp only [allPlain, Bool.and_eq_true] at hbs
      exact absurd h.symm (renderLines_cons_ne hbs.1 bs)
  | a :: as, [], _, _, _, has, _, h => by
      simp only [allPlain, Bool.and_eq_true] at has
      exact absurd h (renderLines_cons_ne has.1 as)
  | a :: as, b :: bs, level, u, v, has, hbs, h => by
      simp only [allPlain, Bool.and_eq_true] at has hbs
      simp only [renderLines, String.toList_append, List.append_assoc,
        List.append_cancel_left_eq] at h
      obtain ⟨rfl, hmore⟩ := render_cancel style a has.1 hbs.1
        (endsExpr_renderLines as level) (endsExpr_renderLines bs level) h
      obtain ⟨rfl, hrest⟩ := renderLines_cancel style as has.2 hbs.2 hmore
      exact ⟨rfl, hrest⟩

end

end Expr

/-- Generated texts are the same only for the same expression, as long as no
name or string needs an escape. -/
theorem generate_eq_iff (style : Style) {a b : Expr}
    (ha : a.isPlain style = true) (hb : b.isPlain style = true) :
    generate style a = generate style b ↔ a = b := by
  constructor
  · intro h
    rw [generate_eq_render, generate_eq_render] at h
    have hnil : EndsExpr [] := by simp [EndsExpr]
    exact (Expr.render_cancel style a ha hb hnil hnil (by rw [h])).1
  · rintro rfl
    rfl

/-- Without indentation, and with keywords for names, a line break in a string
is still told from one between two statements. -/
theorem generate_eq_iff_lines :
    let style : Style := ⟨0, .double⟩
    let f (body : List Expr) : Expr :=
      .function "return" [.identifier "function"] body
    let a := f [.string "x\n\x7d", .returned (.call "return" [.array []])]
    let b :=
      f [.string "x", .identifier "\x27",
        .returned (.call "return" [.array []])]
    a.isPlain style = true ∧ b.isPlain style = true ∧
    generate style a ≠ generate style b := by
  intro style f a b
  have ha : a.isPlain style = true := by decide
  have hb : b.isPlain style = true := by decide
  refine ⟨ha, hb, fun htexts => ?_⟩
  have hsame : a = b := (generate_eq_iff style ha hb).mp htexts
  simp [a, b, f] at hsame

end MarkupTemplate
