/-
Where the report of a diagnostic points.  A diagnostic has its stretch in bytes,
and a report takes the numbers for characters.  So a report names the place of
its diagnostic exactly if no character in front of it takes up more than one
byte, provided that it has an excerpt at all.  Below the heading it shows the
line of the place, unless this is the last line and the stretch, taken for
characters, ends behind it.
-/
import MarkupTemplate.Report
import MarkupTemplate.Proofs.Placement
import MarkupTemplate.Proofs.Unambiguous

namespace MarkupTemplate

/-! ## Lines -/

/-- The lines of a text make up the text. -/
theorem flatten_splitLines (text : List Char) :
    (splitLines text).flatten = text := by
  fun_induction splitLines text with
  | case1 => rfl
  | case2 cs ih => simp [ih]
  | case3 c cs _ _ ih => simp [ih]
  | case4 c cs _ _ hnil ih => simpa [hnil] using ih
  | case5 c cs _ _ line lines hlines ih => simpa [hlines] using ih

theorem splitLines_ne_nil {text : List Char} (h : text ≠ []) :
    splitLines text ≠ [] := by
  intro hnil
  rw [← flatten_splitLines text, hnil] at h
  exact h rfl

theorem linesFrom_append (offset : Nat) (first later : List (List Char)) :
    linesFrom offset (first ++ later) =
      linesFrom offset first ++
        linesFrom (offset + first.flatten.length) later := by
  induction first generalizing offset with
  | nil => rfl
  | cons text texts ih => simp [linesFrom, ih, Nat.add_assoc]

@[simp] theorem length_linesFrom (offset : Nat) (texts : List (List Char)) :
    (linesFrom offset texts).length = texts.length := by
  induction texts generalizing offset with
  | nil => rfl
  | cons text texts ih => simp [linesFrom, ih]

theorem offset_le_of_mem_linesFrom {offset : Nat}
    {texts : List (List Char)} {line : Line}
    (h : line ∈ linesFrom offset texts) :
    line.offset ≤ offset + texts.flatten.length := by
  induction texts generalizing offset with
  | nil => simp [linesFrom] at h
  | cons text texts ih =>
      rw [List.flatten_cons, List.length_append]
      rcases List.mem_cons.mp h with rfl | h
      · exact Nat.le_add_right _ _
      · have hline := ih h
        omega

theorem size_linesFrom (offset size : Nat) (texts : List (List Char)) :
    (linesFrom offset texts).foldl
      (fun size line => size + line.text.length) size =
      size + texts.flatten.length := by
  induction texts generalizing offset size with
  | nil => rfl
  | cons text texts ih => simp [linesFrom, ih, Nat.add_assoc]

/-- The number of characters up to the end of a line. -/
def Line.stop (line : Line) : Nat :=
  line.offset + line.text.length

/-! ## Places -/

/-- A line and a column, both counted from one. -/
@[ext] structure Place where
  line : Nat
  column : Nat
  deriving Repr, DecidableEq

/-- The place right behind the characters `before` of a text.  It is in the line
of the character that follows, and at the end of the text in the last line. -/
def Place.IsBehind (p : Place) (text before : List Char) : Prop :=
  ∃ above front back below,
    splitLines text = above ++ (front ++ back) :: below ∧
    before = above.flatten ++ front ∧ (back = [] → below = []) ∧
    p = ⟨above.length + 1, front.length + 1⟩

/-- Characters in front of a text that is cut into lines end within a line. -/
theorem exists_line_of_isPrefix {lines : List (List Char)} (hne : lines ≠ [])
    {before : List Char} (h : before <+: lines.flatten) :
    ∃ above front back below, lines = above ++ (front ++ back) :: below ∧
      before = above.flatten ++ front ∧ (back = [] → below = []) := by
  induction lines generalizing before with
  | nil => exact absurd rfl hne
  | cons line lines ih =>
      rw [List.flatten_cons] at h
      by_cases hwhole : lines ≠ [] ∧ line <+: before
      · obtain ⟨hlines, more, rfl⟩ := hwhole
        obtain ⟨above, front, back, below, rfl, rfl, hback⟩ :=
          ih hlines ((List.prefix_append_right_inj line).mp h)
        exact ⟨line :: above, front, back, below, rfl, by simp, hback⟩
      · have hwithin : before <+: line := by
          by_cases hlast : lines = []
          · simpa [hlast] using h
          · exact (List.prefix_or_prefix_of_prefix h
              (List.prefix_append _ _)).resolve_right
              fun hline => hwhole ⟨hlast, hline⟩
        obtain ⟨back, rfl⟩ := hwithin
        refine ⟨[], before, back, lines, rfl, rfl, ?_⟩
        rintro rfl
        by_contra hmore
        exact hwhole ⟨hmore, by simp⟩

namespace Place

variable {text before : List Char} {p q : Place}

theorem exists_isBehind (hne : text ≠ []) (h : before <+: text) :
    ∃ p : Place, p.IsBehind text before := by
  rw [← flatten_splitLines text] at h
  obtain ⟨above, front, back, below, hlines, hbefore, hback⟩ :=
    exists_line_of_isPrefix (splitLines_ne_nil hne) h
  exact ⟨_, above, front, back, below, hlines, hbefore, hback, rfl⟩

theorem IsBehind.isPrefix (h : p.IsBehind text before) : before <+: text := by
  obtain ⟨above, front, back, below, hlines, rfl, _⟩ := h
  rw [← flatten_splitLines text, hlines]
  exact ⟨back ++ below.flatten, by simp⟩

theorem IsBehind.ne_nil (h : p.IsBehind text before) : text ≠ [] := by
  rintro rfl
  obtain ⟨above, front, back, below, hlines, _⟩ := h
  simp [splitLines] at hlines

/-- No two places of a text have the same line and column. -/
theorem IsBehind.eq_of_place {other : List Char} (h : p.IsBehind text before)
    (hother : p.IsBehind text other) : before = other := by
  obtain ⟨above, front, back, below, hlines, rfl, _, rfl⟩ := h
  obtain ⟨above', front', back', below', hlines', rfl, _, hplace⟩ := hother
  obtain ⟨habove, hfront⟩ : above.length = above'.length ∧
      front.length = front'.length := by
    simpa using hplace
  obtain ⟨rfl, hline⟩ := List.append_inj (hlines.symm.trans hlines') habove
  obtain ⟨rfl, _⟩ := List.append_inj (List.cons.inj hline).1 hfront
  rfl

end Place

namespace Report.Excerpt

variable {x : Excerpt} {text before : List Char} {p : Place}

theorem size_eq (hlines : x.lines = linesOf text) :
    x.lines.foldl (fun size line => size + line.text.length) 0 =
      text.length := by
  rw [hlines, linesOf, size_linesFrom, flatten_splitLines, Nat.zero_add]

theorem lineAt?_eq_none (hlines : x.lines = linesOf text) {offset : Nat}
    (h : text.length < offset) : x.lineAt? offset = none := by
  rw [← size_eq hlines] at h
  exact if_pos (.inl h)

/-- The lines that begin no later than a place are those above it and its
own. -/
theorem takeWhile_linesFrom {above below : List (List Char)}
    {front back : List Char} (hback : back = [] → below = []) :
    (linesFrom 0 (above ++ (front ++ back) :: below)).takeWhile
        (·.offset ≤ (above.flatten ++ front).length) =
      linesFrom 0 above ++ [⟨above.flatten.length, front ++ back⟩] := by
  have habove : ∀ line ∈ linesFrom 0 above,
      decide (line.offset ≤ (above.flatten ++ front).length) = true := by
    intro line hline
    have hoffset := offset_le_of_mem_linesFrom hline
    rw [List.length_append, decide_eq_true_eq]
    omega
  have hbelow :
      (linesFrom (above.flatten.length + (front ++ back).length)
        below).takeWhile
      (·.offset ≤ (above.flatten ++ front).length) = [] := by
    cases below with
    | nil => rfl
    | cons text texts =>
        have hne : back ≠ [] := fun hnil => List.cons_ne_nil _ _ (hback hnil)
        have hpos := List.length_pos_iff.mpr hne
        apply List.takeWhile_cons_of_neg
        simp only [List.length_append, decide_eq_true_eq]
        omega
  rw [linesFrom_append, List.takeWhile_append_of_pos habove,
    linesFrom, Nat.zero_add, List.takeWhile_cons_of_pos (by simp), hbelow]

theorem getD_of_split (hlines : x.lines = linesOf text)
    {above below : List (List Char)} {line : List Char}
    (hsplit : splitLines text = above ++ line :: below) :
    x.lines.getD above.length default = ⟨above.flatten.length, line⟩ := by
  rw [hlines, linesOf, hsplit, linesFrom_append, linesFrom]
  simp

/-- The line of a place goes on behind it, unless the place is the end of the
text. -/
theorem line_of_isBehind (hlines : x.lines = linesOf text)
    (h : p.IsBehind text before) :
    let line := x.lines.getD (p.line - 1) default
    0 < p.line ∧ p.line ≤ x.lines.length ∧
      line.stop ≤ text.length ∧
      (before.length < line.stop ∨
        p.line = x.lines.length ∧ line.stop = text.length) := by
  obtain ⟨above, front, back, below, hsplit, rfl, hback, rfl⟩ := h
  have hcount : x.lines.length = above.length + 1 + below.length := by
    rw [hlines, linesOf, length_linesFrom, hsplit]
    simp
    omega
  have hline : x.lines.getD (above.length + 1 - 1) default =
      ⟨above.flatten.length, front ++ back⟩ := getD_of_split hlines hsplit
  have htext : text.length =
      above.flatten.length + (front ++ back).length + below.flatten.length := by
    rw [← flatten_splitLines text, hsplit]
    simp
    omega
  simp only [hline, hcount, htext, Line.stop]
  refine ⟨by omega, by omega, by omega, ?_⟩
  cases back with
  | nil =>
      obtain rfl := hback rfl
      exact .inr ⟨rfl, rfl⟩
  | cons c back => exact .inl (by simp)

/-- The stretch ends within the line of its last character, unless that is the
last line and the stretch goes beyond the text. -/
theorem stop_le_stop (hlines : x.lines = linesOf text)
    (hlast : x.last ≤ text.length) (h : p.IsBehind text (text.take x.last))
    (hwithin : x.stop ≤ text.length ∨ p.line < x.lines.length) :
    x.stop ≤ (x.lines.getD (p.line - 1) default).stop := by
  obtain ⟨_, _, _, hgoes⟩ := line_of_isBehind hlines h
  have hstop : x.stop ≤ x.last + 1 :=
    Nat.le_add_of_sub_le (Nat.le_max_left _ _)
  rw [List.length_take, Nat.min_eq_left hlast] at hgoes
  rcases hgoes with hgoes | ⟨hline, hend⟩
  · exact Nat.le_trans hstop hgoes
  · rw [hend]
    exact hwithin.resolve_right (by omega)

theorem lineAt?_le_lineAt? {start last first final : Nat} (hle : start ≤ last)
    (hfirst : x.lineAt? start = some first)
    (hfinal : x.lineAt? last = some final) : first ≤ final := by
  have hmore : ∀ lines : List Line,
      (lines.takeWhile (·.offset ≤ start)).length ≤
        (lines.takeWhile (·.offset ≤ last)).length := by
    intro lines
    induction lines with
    | nil => exact Nat.le_refl _
    | cons line lines ih =>
        simp only [List.takeWhile_cons, decide_eq_true_eq]
        split
        · next h =>
            rw [if_pos (Nat.le_trans h hle)]
            exact Nat.succ_le_succ ih
        · exact Nat.zero_le _
  have hlines := hmore x.lines
  simp only [lineAt?, Option.ite_none_left_eq_some,
    Option.some.injEq] at hfirst hfinal
  omega

/-- A place of the text is found again by the number of characters in front of
it. -/
theorem lineAt?_of_isBehind (hlines : x.lines = linesOf text)
    (h : p.IsBehind text before) :
    ∃ first, x.lineAt? before.length = some first ∧ first + 1 = p.line ∧
      before.length - (x.lines.getD first default).offset + 1 = p.column := by
  have hwithin := Nat.not_lt_of_le h.isPrefix.length_le
  rw [← size_eq hlines] at hwithin
  obtain ⟨above, front, back, below, hsplit, rfl, hback, rfl⟩ := h
  have hcount :
      (x.lines.takeWhile (·.offset ≤ (above.flatten ++ front).length)).length =
      above.length + 1 := by
    rw [hlines, linesOf, hsplit, takeWhile_linesFrom hback, List.length_append,
      length_linesFrom, List.length_singleton]
  have hline := getD_of_split hlines hsplit
  refine ⟨above.length, ?_, rfl, ?_⟩
  · simp only [lineAt?, hcount]
    rw [if_neg (not_or_intro hwithin (Nat.succ_ne_zero _)), Nat.add_sub_cancel]
  · rw [hline, List.length_append, Nat.add_sub_cancel_left]

end Report.Excerpt

/-- A place has one line and one column. -/
theorem Place.IsBehind.place_eq {text before : List Char} {p q : Place}
    (hp : p.IsBehind text before) (hq : q.IsBehind text before) : p = q := by
  let x : Report.Excerpt := ⟨linesOf text, 0, 0, ""⟩
  have hlines : x.lines = linesOf text := rfl
  obtain ⟨first, hfirst, hline, hcolumn⟩ :=
    Report.Excerpt.lineAt?_of_isBehind hlines hp
  obtain ⟨first', hfirst', hline', hcolumn'⟩ :=
    Report.Excerpt.lineAt?_of_isBehind hlines hq
  obtain rfl : first = first' := Option.some.inj (hfirst.symm.trans hfirst')
  exact Place.ext (hline.symm.trans hline') (hcolumn.symm.trans hcolumn')

/-! ## Headings -/

namespace Report

/-- The line above an excerpt, which names a place of a file. -/
def heading (m : Margin) (filename : String) (p : Place) : String :=
  m.space ++ framed "╭" ++ framed "─" ++ framed "[" ++ filename
    ++ (":" ++ toString p.line ++ ":" ++ toString p.column) ++ framed "]"

/-- A number ends with its last digit. -/
theorem cancel_number {n k : Nat} {rest rest' : List Char}
    (hrest : ∀ c ∈ rest.head?, c.isDigit = false)
    (hrest' : ∀ c ∈ rest'.head?, c.isDigit = false)
    (h : (toString n).toList ++ rest = (toString k).toList ++ rest') :
    n = k ∧ rest = rest' := by
  simp only [Nat.toString_eq_repr, Nat.toList_repr] at h
  obtain ⟨hdigits, hsame⟩ :=
    cancel_run isDigit_of_mem_digits isDigit_of_mem_digits hrest hrest' h
  rw [← Nat.toList_repr, ← Nat.toList_repr] at hdigits
  exact ⟨Nat.repr_inj.mp (String.toList_inj.mp hdigits), hsame⟩

theorem toList_heading (m : Margin) (filename : String) (p : Place) :
    (heading m filename p).toList =
      List.replicate (m.digits + 2) ' ' ++
        ((framed "╭" ++ framed "─" ++ framed "[" ++ filename ++ ":").toList ++
          ((toString p.line).toList ++
            ':' :: ((toString p.column).toList ++ (framed "]").toList))) := by
  simp [heading, Margin.space, toList_pushn]

theorem head_framed {p : Char → Bool} (hp : p '\x1b' = false) (text : String)
    (rest : List Char) :
    ∀ c ∈ ((framed text).toList ++ rest).head?, p c = false := by
  simp [framed, coloured, hp]

/-- The margin and the place can be read off a heading, and where it ends. -/
theorem heading_cancel {m m' : Margin} {filename : String} {p p' : Place}
    {rest rest' : String}
    (h : heading m filename p ++ rest = heading m' filename p' ++ rest') :
    m = m' ∧ p = p' ∧ rest = rest' := by
  replace h := congrArg String.toList h
  simp only [String.toList_append, toList_heading, List.append_assoc,
    List.cons_append] at h
  obtain ⟨hspace, h⟩ := cancel_run (p := (· == ' ')) (by simp) (by simp)
    (head_framed rfl _ _) (head_framed rfl _ _) h
  simp only [List.append_cancel_left_eq] at h
  obtain ⟨hline, h⟩ := cancel_number (by simp) (by simp) h
  obtain ⟨hcolumn, h⟩ := cancel_number (head_framed rfl _ _)
    (head_framed rfl _ _) (List.cons.inj h).2
  have hdigits : m.digits = m'.digits := by
    simpa using congrArg List.length hspace
  refine ⟨?_, Place.ext hline hcolumn, ?_⟩
  · cases m
    exact congrArg Margin.mk hdigits
  · exact String.toList_inj.mp (List.append_cancel_left h)

/-- The lines of an excerpt below its heading. -/
def inside (x : Excerpt) (m : Margin) (first final : Nat) : List String :=
  (m.space ++ framed "│") ::
    ((if first = final then oneLine x m first (x.lines.getD first default)
      else severalLines x m first final) ++ [m.bottom])

/-- If the stretch ends in the text, the excerpt is headed by the place of its
first character. -/
theorem body_of_isBehind {x : Excerpt} {text : List Char}
    (hlines : x.lines = linesOf text) {p : Place}
    (hp : p.IsBehind text (text.take x.start)) (hlast : x.last ≤ text.length)
    (filename : String) :
    ∃ q : Place, q.IsBehind text (text.take x.last) ∧ p.line ≤ q.line ∧
      ∃ m, body x filename =
        heading m filename p :: inside x m (p.line - 1) (q.line - 1) := by
  have hle : x.start ≤ x.last := Nat.le_max_right _ _
  obtain ⟨first, hfirst, hline, hcolumn⟩ :=
    Excerpt.lineAt?_of_isBehind hlines hp
  rw [List.length_take,
    Nat.min_eq_left (Nat.le_trans hle hlast)] at hfirst hcolumn
  obtain ⟨q, hq⟩ :=
    Place.exists_isBehind hp.ne_nil (List.take_prefix x.last text)
  obtain ⟨final, hfinal, hend, _⟩ := Excerpt.lineAt?_of_isBehind hlines hq
  rw [List.length_take, Nat.min_eq_left hlast] at hfinal
  have hrange := Excerpt.lineAt?_le_lineAt? hle hfirst hfinal
  have hfirstIndex : p.line - 1 = first := by omega
  have hfinalIndex : q.line - 1 = final := by omega
  refine ⟨q, hq, by omega, ⟨(toString (final + 1)).length⟩, ?_⟩
  simp only [body, hfirst, hfinal, hline, hcolumn, heading, inside, hfirstIndex,
    hfinalIndex, List.cons_append, List.nil_append]

theorem body_of_outside {x : Excerpt} {text : List Char}
    (hlines : x.lines = linesOf text) (hlast : text.length < x.last)
    (filename : String) : body x filename = [] := by
  simp only [body, Excerpt.lineAt?_eq_none hlines hlast]
  cases x.lineAt? x.start <;> rfl

/-- A line of the source in an excerpt, with a mark in front of it. -/
def shownLine (x : Excerpt) (m : Margin) (mark : String)
    (index : Nat) : String :=
  m.number index ++ mark ++ x.lineText (x.lines.getD index default)

theorem severalLines_eq_cons {x : Excerpt} {first final : Nat}
    (hle : first ≤ final) (hfirst : first < x.lines.length) (m : Margin) :
    ∃ more, severalLines x m first final =
      shownLine x m (corner "╭") first :: more := by
  have hsplit := List.take_append_drop first x.lines
  rw [List.drop_eq_getElem_cons hfirst] at hsplit
  rw [severalLines, shownLine, List.getD_eq_getElem _ _ hfirst]
  conv in List.zipIdx _ => rw [← hsplit]
  rw [List.zipIdx_append, List.flatMap_append, List.zipIdx_cons,
    List.flatMap_cons, List.flatMap_eq_nil_iff.mpr]
  · simp [Nat.min_eq_left (Nat.le_of_lt hfirst), Nat.not_lt.mpr hle]
  · rintro ⟨line, index⟩ hmem
    have hindex := List.snd_lt_of_mem_zipIdx hmem
    rw [List.length_take] at hindex
    exact if_pos (.inl (by omega))

/-- The first line of the stretch is shown, if it is not a single line with the
end of the stretch behind it. -/
theorem inside_shows {x : Excerpt} {first final : Nat} (hle : first ≤ final)
    (hfirst : first < x.lines.length)
    (hends : first = final → x.stop ≤ (x.lines.getD first default).stop)
    (m : Margin) :
    ∃ mark more, (mark = "" ∨ mark = corner "╭") ∧ inside x m first final =
      (m.space ++ framed "│") :: shownLine x m mark first :: more := by
  rw [inside]
  split
  · next hsame =>
      rw [oneLine, ← Line.stop, if_neg (Nat.not_lt.mpr (hends hsame))]
      refine ⟨"", underline x m (x.lines.getD first default) ++ [m.bottom],
        .inl rfl, ?_⟩
      rw [shownLine, String.append_empty, List.cons_append]
  · obtain ⟨more, hmore⟩ := severalLines_eq_cons hle hfirst m
    refine ⟨_, more ++ [m.bottom], .inr rfl, ?_⟩
    rw [hmore, List.cons_append]

theorem inside_hides {x : Excerpt} {first : Nat}
    (hends : (x.lines.getD first default).stop < x.stop) (m : Margin) :
    inside x m first first = [m.space ++ framed "│", m.blank, m.bottom] := by
  rw [inside, if_pos rfl, oneLine, ← Line.stop, if_pos hends]
  rfl

/-- The margin of a line of the source is not that of the other lines. -/
theorem shownLine_ne_blank (x : Excerpt) (m m' : Margin) (mark : String)
    (index : Nat) (rest rest' : String) :
    shownLine x m mark index ++ rest ≠ m'.blank ++ rest' := by
  intro h
  have hcolour := congrArg String.toList h
  simp [shownLine, Margin.number, Margin.blank, framed, faint,
    coloured] at hcolour

end Report

/-! ## Bytes and characters -/

theorem length_le_byteLength (cs : List Char) : cs.length ≤ byteLength cs := by
  induction cs with
  | nil => exact Nat.le_refl 0
  | cons c cs ih =>
      have hsize := c.utf8Size_pos
      rw [List.length_cons, byteLength_cons]
      omega

/-- A text has as many bytes as characters exactly if each takes up one byte. -/
theorem byteLength_eq_length_iff (cs : List Char) :
    byteLength cs = cs.length ↔ ∀ c ∈ cs, c.utf8Size = 1 := by
  induction cs with
  | nil => simp
  | cons c cs ih =>
      have hsize := c.utf8Size_pos
      have hlater := length_le_byteLength cs
      rw [List.forall_mem_cons, ← ih, List.length_cons, byteLength_cons]
      omega

theorem eq_nil_of_byteLength {cs : List Char}
    (h : byteLength cs = 0) : cs = [] := by
  by_contra hne
  exact Nat.ne_of_gt (byteLength_pos hne) h

/-- A place of a text is told by the number of bytes in front of it. -/
theorem eq_of_byteLength {text first later : List Char}
    (hfirst : first <+: text) (hlater : later <+: text)
    (h : byteLength first = byteLength later) : first = later := by
  rcases List.prefix_or_prefix_of_prefix hfirst hlater with ⟨more, rfl⟩ |
    ⟨more, rfl⟩
  · rw [byteLength_append] at h
    rw [eq_nil_of_byteLength (Nat.left_eq_add.mp h), List.append_nil]
  · rw [byteLength_append] at h
    rw [eq_nil_of_byteLength (Nat.add_eq_left.mp h), List.append_nil]

namespace Diagnostic

def title (d : Diagnostic) : String :=
  Report.marked "Warning:" ++ " " ++ d.message

def excerpt (d : Diagnostic) (source : String) : Report.Excerpt :=
  ⟨linesOf source.toList, d.span.start, d.span.stop, d.hint⟩

theorem report_eq (d : Diagnostic) (source filename : String) :
    d.report source filename = d.title ++ "\n" ++
      String.join
        ((Report.body (d.excerpt source) filename).map (· ++ "\n")) := by
  rw [report, List.map_cons, String.join_cons]
  rfl

/-- The report of a diagnostic has an excerpt under a heading with this
place. -/
def PointsTo (d : Diagnostic) (source filename : String) (p : Place) : Prop :=
  ∃ m rest, d.report source filename =
    d.title ++ "\n" ++ (Report.heading m filename p ++ "\n" ++ rest)

/-- The report of a diagnostic has an excerpt under a heading with this place,
and the excerpt begins with the line of the place. -/
def ShowsLine (d : Diagnostic) (source filename : String) (p : Place) : Prop :=
  ∃ m mark rest, (mark = "" ∨ mark = Report.corner "╭") ∧
    d.report source filename =
      d.title ++ "\n" ++ (Report.heading m filename p ++ "\n" ++
        (m.space ++ Report.framed "│" ++ "\n" ++
          (Report.shownLine (d.excerpt source) m mark (p.line - 1) ++
            "\n" ++ rest)))

theorem ShowsLine.pointsTo {d : Diagnostic}
    {source filename : String} {p : Place} (h : d.ShowsLine source filename p) :
    d.PointsTo source filename p := by
  obtain ⟨m, mark, rest, _, hreport⟩ := h
  exact ⟨m, _, hreport⟩

/-- A report takes the stretch of its diagnostic for a stretch of characters. -/
theorem pointsTo_iff (d : Diagnostic) {source : String}
    (hne : source.toList ≠ []) (filename : String) (p : Place) :
    d.PointsTo source filename p ↔
      max (d.span.stop - 1) d.span.start ≤ source.toList.length ∧
        p.IsBehind source.toList (source.toList.take d.span.start) := by
  have hlines : (d.excerpt source).lines = linesOf source.toList := rfl
  rw [PointsTo, report_eq]
  constructor
  · rintro ⟨m, rest, h⟩
    rw [String.append_right_inj] at h
    by_cases hlast : (d.excerpt source).last ≤ source.toList.length
    · obtain ⟨q, hq⟩ := Place.exists_isBehind hne
        (List.take_prefix d.span.start source.toList)
      obtain ⟨_, _, _, m', hbody⟩ :=
        Report.body_of_isBehind hlines hq hlast filename
      rw [hbody, List.map_cons, String.join_cons, String.append_assoc,
        String.append_assoc] at h
      obtain ⟨_, rfl, _⟩ := Report.heading_cancel h
      exact ⟨hlast, hq⟩
    · rw [Report.body_of_outside hlines (Nat.lt_of_not_le hlast)] at h
      have hnone := congrArg String.toList h
      simp [Report.toList_heading] at hnone
  · rintro ⟨hlast, hp⟩
    obtain ⟨_, _, _, m, hbody⟩ :=
      Report.body_of_isBehind hlines hp hlast filename
    rw [hbody, List.map_cons, String.join_cons]
    exact ⟨m, _, rfl⟩

/-- Below the heading stands the line of the place, unless it is the last one
and the stretch, taken for characters, ends behind it. -/
theorem showsLine_iff (d : Diagnostic) {source : String}
    (hne : source.toList ≠ []) (filename : String) (p : Place) :
    d.ShowsLine source filename p ↔ d.PointsTo source filename p ∧
      (d.span.stop ≤ source.toList.length ∨
        p.line < (splitLines source.toList).length) := by
  let x := d.excerpt source
  have hlines : x.lines = linesOf source.toList := rfl
  have hcount : x.lines.length = (splitLines source.toList).length :=
    length_linesFrom _ _
  rw [← hcount]
  constructor
  · intro hshows
    refine ⟨hshows.pointsTo, ?_⟩
    by_contra hbeyond
    rw [not_or, Nat.not_le, Nat.not_lt] at hbeyond
    obtain ⟨hlast, hp⟩ := (d.pointsTo_iff hne filename p).mp hshows.pointsTo
    obtain ⟨q, hq, hle, m, hbody⟩ :=
      Report.body_of_isBehind hlines hp hlast filename
    obtain ⟨_, hbound, hends, _⟩ := Report.Excerpt.line_of_isBehind hlines hq
    have hsame : p.line = q.line := by omega
    rw [hsame,
      Report.inside_hides (Nat.lt_of_le_of_lt hends hbeyond.1)] at hbody
    obtain ⟨m', mark, rest, _, h⟩ := hshows
    rw [report_eq, hbody, String.append_right_inj] at h
    simp only [List.map_cons, String.join_cons, String.append_assoc] at h
    obtain ⟨rfl, _, h⟩ := Report.heading_cancel h
    simp only [String.append_right_inj] at h
    exact Report.shownLine_ne_blank _ _ _ _ _ _ _ h.symm
  · rintro ⟨hpoints, hwithin⟩
    obtain ⟨hlast, hp⟩ := (d.pointsTo_iff hne filename p).mp hpoints
    obtain ⟨q, hq, hle, m, hbody⟩ :=
      Report.body_of_isBehind hlines hp hlast filename
    obtain ⟨hpos, hfirst, _⟩ := Report.Excerpt.line_of_isBehind hlines hp
    have hends : p.line - 1 = q.line - 1 →
        x.stop ≤ (x.lines.getD (p.line - 1) default).stop := by
      intro hsame
      rw [hsame]
      exact Report.Excerpt.stop_le_stop hlines hlast hq
        (hwithin.imp_right (by omega))
    obtain ⟨mark, more, hmark, hinside⟩ :=
      Report.inside_shows (Nat.sub_le_sub_right hle 1) (by omega) hends m
    refine ⟨m, mark, String.join (more.map (· ++ "\n")), hmark, ?_⟩
    rw [report_eq, hbody, hinside]
    simp only [x, List.map_cons, String.join_cons, String.append_assoc]

/-- The place that a report names is the one behind the bytes in front of the
stretch exactly if these are as many characters. -/
theorem pointsTo_iff_of_isBehind (d : Diagnostic) {source : String}
    {before : List Char} {p : Place} (hbytes : byteLength before = d.span.start)
    (hp : p.IsBehind source.toList before) (filename : String) :
    d.PointsTo source filename p ↔
      (∀ c ∈ before, c.utf8Size = 1) ∧
      d.span.stop ≤ source.toList.length + 1 := by
  have hbefore := hp.isPrefix
  rw [d.pointsTo_iff hp.ne_nil, ← byteLength_eq_length_iff, hbytes]
  constructor
  · rintro ⟨hlast, hbehind⟩
    have hlength := congrArg List.length (hp.eq_of_place hbehind)
    rw [List.length_take] at hlength
    omega
  · rintro ⟨hlength, hend⟩
    have hle := hbefore.length_le
    refine ⟨by omega, ?_⟩
    rw [hlength, ← List.prefix_iff_eq_take.mp hbefore]
    exact hp

end Diagnostic

theorem Template.source_ne_nil {o : ReadOptions} {source : String}
    {d : Diagnostic} (hd : d ∈ (Template.read o source).diagnostics) :
    source.toList ≠ [] := by
  intro hnil
  have hends : endsSiblings .data [] (Cursor.start source.toList).rest =
      true := by
    rw [Cursor.start, hnil]
    rfl
  simp [Template.diagnostics, Template.read,
    siblings_of_endsSiblings hends] at hd

/-- The place of a diagnostic is the one behind the characters in front of its
stretch.  Its report names this place exactly if each of these characters takes
up one byte and the stretch, taken for characters, goes at most one beyond the
end of the source.  Otherwise the report names the place behind as many
characters as there are bytes in front of the stretch, or it has no excerpt.
The line of the place that it names is shown, unless this is the last line and
the stretch, taken for characters, ends behind it. -/
theorem Template.read_report_pointsTo (o : ReadOptions)
    (source filename : String) (d : Diagnostic)
    (hd : d ∈ (Template.read o source).diagnostics) :
    ∃ before p, before <+: source.toList ∧ byteLength before = d.span.start ∧
      (∀ q : Place, q.IsBehind source.toList before ↔ q = p) ∧
      (d.PointsTo source filename p ↔
        (∀ c ∈ before, c.utf8Size = 1) ∧
        d.span.stop ≤ source.toList.length + 1) ∧
      (∀ q, d.PointsTo source filename q ↔
        max (d.span.stop - 1) d.span.start ≤ source.toList.length ∧
          q.IsBehind source.toList (source.toList.take d.span.start)) ∧
      (∀ q, d.ShowsLine source filename q ↔ d.PointsTo source filename q ∧
        (d.span.stop ≤ source.toList.length ∨
          q.line < (splitLines source.toList).length)) ∧
      ((∀ c ∈ source.toList, c.utf8Size = 1) →
        d.PointsTo source filename p ∧ d.ShowsLine source filename p) := by
  have hne := Template.source_ne_nil hd
  have hreads := siblings_reads o .data [] (Cursor.start source.toList)
  obtain ⟨_, hdiagnostics⟩ := Template.read_of_reads hreads
  have hpasses : (Cursor.start source.toList).Passes d.span := by
    apply hreads.passedFrom.problems
    rwa [← hdiagnostics]
  obtain ⟨_, hstop, _, _⟩ := hpasses.fitsIn
  obtain ⟨c, e, ⟨before, hsource, hoffset⟩, _, hspan⟩ := hpasses
  have hbefore : before <+: source.toList := ⟨c.rest, hsource.symm⟩
  have hbytes : byteLength before = d.span.start := by
    rw [hspan]
    simpa [Cursor.start, Cursor.spanTo] using hoffset.symm
  obtain ⟨p, hp⟩ := Place.exists_isBehind hne hbefore
  have hright := d.pointsTo_iff_of_isBehind hbytes hp filename
  refine ⟨before, p, hbefore, hbytes, ?_, hright, d.pointsTo_iff hne filename,
    d.showsLine_iff hne filename, ?_⟩
  · intro q
    constructor
    · exact fun hq => hq.place_eq hp
    · rintro rfl
      exact hp
  · intro hascii
    have hsize := (byteLength_eq_length_iff source.toList).mpr hascii
    rw [← byteLength_toList, hsize] at hstop
    have hpoints := hright.mpr
      ⟨fun c hc => hascii c (hbefore.subset hc), Nat.le_succ_of_le hstop⟩
    exact ⟨hpoints, (d.showsLine_iff hne filename p).mpr ⟨hpoints, .inl hstop⟩⟩

/-- An end tag that begins the second line of a source, with a longer character
behind it. -/
theorem Template.read_report_pointsTo_second_line :
    let source := "<p>\n</q>ö"
    let d := Diagnostic.unmatchedClosingTag "q" ⟨4, 8⟩
    d ∈ (Template.read {} source).diagnostics ∧
      d.PointsTo source "t.html" ⟨2, 1⟩ ∧
      d.ShowsLine source "t.html" ⟨2, 1⟩ := by
  intro source d
  have hd : d ∈ (Template.read {} source).diagnostics := by decide +kernel
  refine ⟨hd, ?_⟩
  obtain ⟨before, p, hbefore, hbytes, hplace, hright, _, hshows, _⟩ :=
    Template.read_report_pointsTo {} source "t.html" d hd
  obtain rfl : before = "<p>\n".toList :=
    eq_of_byteLength hbefore (by decide +kernel) hbytes
  have hsecond : Place.IsBehind ⟨2, 1⟩ source.toList "<p>\n".toList :=
    ⟨["<p>\n".toList], [], "</q>ö".toList, [], by decide +kernel,
      rfl, by simp, rfl⟩
  rw [(hplace _).mp hsecond]
  have hpoints := hright.mpr ⟨(byteLength_eq_length_iff _).mp rfl, by decide⟩
  exact ⟨hpoints, (hshows p).mpr ⟨hpoints, .inl (by decide)⟩⟩

/-- The stretch of this end tag ends one byte behind the five characters of the
source, so the heading is right and no line is shown. -/
example :
    let d := Diagnostic.unmatchedClosingTag "aö" ⟨0, 6⟩
    let report := (d.report "</aö>" "t.html").toList
    (Template.read {} "</aö>").diagnostics = [d] ∧
      "t.html:1:1".toList <:+: report ∧ ¬ "1 │".toList <:+: report := by
  decide +kernel

/-- A report behind a character of two bytes names the column one too far. -/
theorem Template.report_misplaced_behind_umlaut :
    let source := "ö</p>"
    let d := Diagnostic.unmatchedClosingTag "p" ⟨2, 6⟩
    (Template.read {} source).diagnostics = [d] ∧
      byteLength ['ö'] = d.span.start ∧
      Place.IsBehind ⟨1, 2⟩ source.toList ['ö'] ∧
      ¬ "t.html:1:2".toList <:+: (d.report source "t.html").toList ∧
      d.PointsTo source "t.html" ⟨1, 3⟩ := by
  intro source d
  refine ⟨by decide +kernel, by decide, ?_, by decide +kernel, ?_⟩
  · exact ⟨[], ['ö'], "</p>".toList, [], by decide, rfl, by simp, rfl⟩
  · rw [Diagnostic.pointsTo_iff d (by decide)]
    exact ⟨by decide, [], ['ö', '<'], "/p>".toList, [], by decide,
      by decide, by simp, rfl⟩

end MarkupTemplate
