/-
Reading as a machine.  The elements that are open stand on a stack, and one
step either reads what begins at the current place or, where content ends,
leaves the innermost open element.  The machine makes what `siblings` makes, and
its states show what is open whenever reading asks whether content ends.
-/
import MarkupTemplate.Proofs.Machine
import MarkupTemplate.Proofs.Reads

namespace MarkupTemplate

/-- An open element: its start tag, where it begins, and the nodes in front of
it among its siblings. -/
structure Frame where
  tag : StartTag
  start : Cursor
  before : List Node

/-- A reader: the open elements, the innermost first, the nodes read so far in
the innermost of them, what was noted, and the place where it stands. -/
structure Reader where
  frames : List Frame
  nodes : List Node
  notes : List Note
  here : Cursor

namespace Reader

def start (source : String) : Reader :=
  ⟨[], [], [], Cursor.start source.toList⟩

def opened (s : Reader) : List String :=
  s.frames.map (·.tag.name)

/-- The text mode, which the innermost open element decides. -/
def mode (s : Reader) : TextMode :=
  match s.frames with
  | [] => .data
  | f :: _ => TextMode.ofTag f.tag.name

/-- Go on behind nodes that are complete. -/
def take (s : Reader) (item : Siblings) : Reader :=
  ⟨s.frames, s.nodes ++ item.nodes, s.notes ++ item.notes, item.next⟩

/-- Go on inside an element. -/
def enter (s : Reader) (tag : StartTag) : Reader :=
  ⟨⟨tag, s.here, s.nodes⟩ :: s.frames, [],
    s.notes ++ tag.notes s.here, tag.next⟩

/-- Go on behind an element, whose content ends here. -/
def leave (s : Reader) (f : Frame) (outer : List Frame) : Reader :=
  let (problems, next) := f.tag.close s.here
  ⟨outer, f.before ++ [f.tag.element s.nodes (f.start.spanTo next)],
    s.notes ++ problems.map .problem, next⟩

def step (o : ReadOptions) (s : Reader) : Option Reader :=
  if endsContent s.opened s.here.rest then
    match s.frames with
    | [] => none
    | f :: outer => some (s.leave f outer)
  else
    match Piece.read o s.mode s.here with
    | .whole item => some (s.take item)
    | .cdata _ => some (s.take (.cdata s.here))
    | .start tag =>
        if tag.ending ≠ .opened then some (s.take (tag.alone s.here []))
        else if o.maxDepth ≤ s.frames.length then
          some (s.take
            (tag.alone s.here [.nestingTooDeep tag.name o.maxDepth tag.span]))
        else some (s.enter tag)

abbrev steps (o : ReadOptions) : Nat → Reader → Option Reader :=
  Machine.steps (step o)

abbrev Reaches (o : ReadOptions) : Reader → Reader → Prop :=
  Machine.Reaches (step o)

variable {o : ReadOptions} {s t u : Reader}

@[simp] theorem take_followedBy (s : Reader) (first later : Siblings) :
    s.take (first.followedBy later) = (s.take first).take later := by
  simp [take, Siblings.followedBy]

theorem take_none (s : Reader) : s.take ⟨[], [], s.here⟩ = s := by
  simp [take]

theorem mode_ne_cdata (s : Reader) : s.mode ≠ .cdata := by
  unfold mode
  split
  · simp
  · exact TextMode.ofTag_ne_cdata _

theorem step_of_leaf {item : Siblings}
    (hgoes : endsContent s.opened s.here.rest = false)
    (hleaf : Leaf o s.mode s.here item) : s.step o = some (s.take item) := by
  rcases hleaf.read_eq with hread | ⟨rfl, hread⟩ <;> simp [step, hgoes, hread]

section

variable {tag : StartTag} (hgoes : endsContent s.opened s.here.rest = false)
  (hmode : s.mode = .data) (htag : StartTag.read? s.here = some tag)

include hgoes hmode htag

theorem step_of_alone (hending : tag.ending ≠ .opened) :
    s.step o = some (s.take (tag.alone s.here [])) := by
  simp [step, hgoes, hmode, Piece.read_of_startTag htag, hending]

theorem step_of_tooDeep (hending : tag.ending = .opened)
    (hdeep : o.maxDepth ≤ s.frames.length) :
    s.step o = some (s.take
      (tag.alone s.here [.nestingTooDeep tag.name o.maxDepth tag.span])) := by
  simp [step, hgoes, hmode, Piece.read_of_startTag htag, hending, hdeep]

theorem step_of_enter (hending : tag.ending = .opened)
    (hroom : s.frames.length < o.maxDepth) : s.step o = some (s.enter tag) := by
  simp [step, hgoes, hmode, Piece.read_of_startTag htag, hending,
    Nat.not_le.mpr hroom]

end

theorem step_of_leave {f : Frame} {outer : List Frame}
    (hend : endsContent s.opened s.here.rest = true)
    (hframes : s.frames = f :: outer) : s.step o = some (s.leave f outer) := by
  simp [step, hend, hframes]

/-- An element is entered, its content read and the element left again. -/
theorem leave_enter (s : Reader) (tag : StartTag) (inside : Siblings) :
    ((s.enter tag).take inside).leave ⟨tag, s.here, s.nodes⟩ s.frames =
      s.take (tag.around s.here inside) := by
  simp [leave, enter, take, StartTag.around]

variable {base : List Frame}

/-- A run inside the elements `base`: none of them is left on the way, and their
content does not end before the run does. -/
inductive Inside (o : ReadOptions) (base : List Frame) :
    Reader → Reader → Prop where
  | refl (s : Reader) : Inside o base s s
  | step {s t u : Reader} (hbase : base <:+ s.frames)
      (hgoes : s.frames = base → endsContent s.opened s.here.rest = false)
      (hstep : s.step o = some t) (hlater : Inside o base t u) :
      Inside o base s u

namespace Inside

theorem trans (hst : Inside o base s t) (htu : Inside o base t u) :
    Inside o base s u := by
  induction hst with
  | refl => exact htu
  | step hbase hgoes hstep _ ih => exact .step hbase hgoes hstep (ih htu)

theorem of_step (hgoes : endsContent s.opened s.here.rest = false)
    (hstep : s.step o = some t) : Inside o s.frames s t :=
  .step (List.suffix_refl _) (fun _ => hgoes) hstep (.refl t)

/-- Inside an element a run is also inside the elements around it, and so is
the step that leaves the element. -/
theorem of_cons {f : Frame} (hst : Inside o (f :: base) s t)
    (hframes : t.frames = f :: base) (hleave : t.step o = some u) :
    Inside o base s u := by
  have houtside : ∀ {v : Reader}, f :: base <:+ v.frames →
      base <:+ v.frames ∧ v.frames ≠ base := by
    intro v hv
    refine ⟨(List.suffix_cons f base).trans hv, fun heq => ?_⟩
    have hlength := hv.length_le
    simp [heq] at hlength
  induction hst with
  | refl t =>
      obtain ⟨hbase, hne⟩ := houtside (v := t) (by rw [hframes])
      exact .step hbase (fun h => absurd h hne) hleave (.refl u)
  | step hbase _ hstep _ ih =>
      obtain ⟨hbase, hne⟩ := houtside hbase
      exact .step hbase (fun h => absurd h hne) hstep (ih hframes hleave)

theorem reaches (h : Inside o base s t) : s.Reaches o t := by
  induction h with
  | refl => exact .refl
  | step _ _ hstep _ ih => exact (Machine.Reaches.of_step hstep).trans ih

end Inside

/-- Reading an element and its content takes no other element off the stack. -/
theorem inside_around {tag : StartTag} {inside : Siblings}
    (hgoes : endsContent s.opened s.here.rest = false)
    (henter : s.step o = some (s.enter tag))
    (hinside : Inside o (s.enter tag).frames (s.enter tag)
      ((s.enter tag).take inside))
    (hend : endsContent (tag.name :: s.opened) inside.next.rest = true) :
    Inside o s.frames s (s.take (tag.around s.here inside)) := by
  have hleave : ((s.enter tag).take inside).step o =
      some (s.take (tag.around s.here inside)) := by
    rw [← leave_enter]
    exact step_of_leave hend rfl
  exact (Inside.of_step hgoes henter).trans (hinside.of_cons rfl hleave)

end Reader

/-- The machine reads what the relation tells, and stays inside the elements
that are open. -/
theorem Reads.inside {o : ReadOptions} {mode : TextMode}
    {opened : List String} {c : Cursor} {r : Siblings}
    (h : Reads o mode opened c r) (s : Reader) (hmode : s.mode = mode)
    (hopened : s.opened = opened) (hhere : s.here = c) :
    Reader.Inside o s.frames s (s.take r) := by
  induction h generalizing s with
  | ends =>
      rw [← hhere, Reader.take_none]
      exact .refl s
  | leaf hgoes hleaf _ ih =>
      subst hmode hopened hhere
      rw [Reader.take_followedBy]
      exact (Reader.Inside.of_step hgoes
        (Reader.step_of_leaf hgoes hleaf)).trans (ih (s.take _) rfl rfl rfl)
  | alone hgoes htag hending _ ih =>
      subst hopened hhere
      rw [Reader.take_followedBy]
      exact (Reader.Inside.of_step hgoes
        (Reader.step_of_alone hgoes hmode htag hending)).trans
        (ih (s.take _) hmode rfl rfl)
  | tooDeep hgoes htag hending hdeep _ ih =>
      subst hopened hhere
      rw [Reader.opened, List.length_map] at hdeep
      rw [Reader.take_followedBy]
      exact (Reader.Inside.of_step hgoes
        (Reader.step_of_tooDeep hgoes hmode htag hending hdeep)).trans
        (ih (s.take _) hmode rfl rfl)
  | @element _ _ tag inside _ hgoes htag hending hroom hinside _ ihinside ih =>
      subst hopened hhere
      rw [Reader.opened, List.length_map] at hroom
      -- the content is read with one more frame on the stack, which the last
      -- step takes off
      rw [Reader.take_followedBy]
      exact (Reader.inside_around hgoes
        (Reader.step_of_enter hgoes hmode htag hending hroom)
        (ihinside (s.enter tag) rfl rfl rfl) hinside.endsContent_next).trans
        (ih (s.take _) hmode rfl rfl)

theorem Reads.reaches {o : ReadOptions} {mode : TextMode}
    {opened : List String} {c : Cursor} {r : Siblings}
    (h : Reads o mode opened c r) (s : Reader) (hmode : s.mode = mode)
    (hopened : s.opened = opened) (hhere : s.here = c) :
    s.Reaches o (s.take r) :=
  (h.inside s hmode hopened hhere).reaches

/-- The last state holds what the template is read as. -/
theorem Reader.reaches_last (o : ReadOptions) (source : String) :
    ∃ last, (Reader.start source).Reaches o last ∧ last.step o = none ∧
      last.nodes = (Template.read o source).root.children ∧
      last.notes = (Template.read o source).notes := by
  have hreads := siblings_reads o .data [] (Cursor.start source.toList)
  have hrest := congrArg Cursor.rest hreads.next_eq_toEnd
  refine ⟨_, hreads.reaches (Reader.start source) rfl rfl rfl, ?_, ?_, ?_⟩
  · simp [Reader.step, Reader.take, Reader.start, Reader.opened,
      endsContent, hrest]
  · simp [Reader.take, Reader.start, Template.read, Node.children]
  · simp [Reader.take, Reader.start, Template.read]

inductive Reader.Step (o : ReadOptions) (s : Reader) : Reader → Prop where
  | leave {f : Frame} {outer : List Frame}
      (hend : endsContent s.opened s.here.rest = true)
      (hframes : s.frames = f :: outer) : Step o s (s.leave f outer)
  | leaf {item : Siblings} (hgoes : endsContent s.opened s.here.rest = false)
      (hleaf : Leaf o s.mode s.here item) : Step o s (s.take item)
  | alone {tag : StartTag} {problems : List Diagnostic}
      (htag : StartTag.read? s.here = some tag)
      (hproblems : problems = [] ∨
        problems = [.nestingTooDeep tag.name o.maxDepth tag.span]) :
      Step o s (s.take (tag.alone s.here problems))
  | enter {tag : StartTag} (htag : StartTag.read? s.here = some tag) :
      Step o s (s.enter tag)

theorem Reader.step_cases {o : ReadOptions} {s t : Reader}
    (h : s.step o = some t) : s.Step o t := by
  unfold Reader.step at h
  split at h
  · next hend =>
      split at h
      · contradiction
      · next f outer hframes =>
          rw [← Option.some.inj h]
          exact .leave hend hframes
  · next hgoes =>
      split at h
      · next item hpiece =>
          rw [← Option.some.inj h]
          exact .leaf (by simpa using hgoes)
            (Piece.read_eq_whole s.mode_ne_cdata hpiece)
      · next hpiece =>
          obtain ⟨hmode, hopening, -⟩ := Piece.read_eq_cdata hpiece
          rw [← Option.some.inj h]
          exact .leaf (by simpa using hgoes) (.cdata hmode hopening)
      · next tag hpiece =>
          have htag := (Piece.read_eq_start hpiece).2
          split at h
          · rw [← Option.some.inj h]
            exact .alone htag (Or.inl rfl)
          · split at h
            · rw [← Option.some.inj h]
              exact .alone htag (Or.inr rfl)
            · rw [← Option.some.inj h]
              exact .enter htag

/-- The names of open elements are names of tags. -/
theorem Reader.isTagName_opened {o : ReadOptions} {source : String} {s : Reader}
    (h : (Reader.start source).Reaches o s) :
    ∀ f ∈ s.frames, isTagName f.tag.name.toList = true := by
  refine h.invariant (P := fun s => ∀ f ∈ s.frames,
    isTagName f.tag.name.toList = true)
    (fun s t hs hstep => ?_) (by simp [Reader.start])
  cases Reader.step_cases hstep with
  | leave _ hframes =>
      intro f hf
      exact hs f (by rw [hframes]; exact List.mem_cons_of_mem _ hf)
  | leaf => exact hs
  | alone => exact hs
  | enter htag =>
      intro f hf
      rcases List.mem_cons.mp hf with rfl | hf
      · exact StartTag.isTagName_name htag
      · exact hs f hf

end MarkupTemplate
