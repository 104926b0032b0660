/-
End tags close the innermost open element of their name.  The elements opened
inside that one end where the end tag begins, each with one complaint, and at
the end of the source the same happens to all that are open.  An end tag is
reported as closing nothing only if no open element has its name.
-/
import MarkupTemplate.Proofs.Reader

namespace MarkupTemplate

/-- The complaint about an element whose end tag is missing. -/
def Frame.missing (f : Frame) : Note :=
  .problem (.missingClosingTag f.tag.name f.tag.span)

/-- The nodes around open elements that all end at a place, the innermost of
them holding `nodes`. -/
def gather (stop : Cursor) : List Frame → List Node → List Node
  | [], nodes => nodes
  | f :: outer, nodes =>
      gather stop outer
        (f.before ++ [f.tag.element nodes (f.start.spanTo stop)])

theorem gather_append (stop : Cursor) (inner outer : List Frame)
    (nodes : List Node) :
    gather stop (inner ++ outer) nodes =
      gather stop outer (gather stop inner nodes) := by
  induction inner generalizing nodes with
  | nil => rfl
  | cons f inner ih => exact ih _

namespace Reader

/-- The state in which the innermost open elements have been given up: each
ends where the reader stands, and is complained of. -/
def abandon (s : Reader) (count : Nat) : Reader :=
  ⟨s.frames.drop count, gather s.here (s.frames.take count) s.nodes,
    s.notes ++ (s.frames.take count).map Frame.missing, s.here⟩

variable {o : ReadOptions} {s : Reader}

theorem abandon_zero (s : Reader) : s.abandon 0 = s := by
  simp [abandon, gather]

/-- The next open element is given up too. -/
theorem abandon_succ {count : Nat} {f : Frame} {outer : List Frame}
    (hframes : s.frames.drop count = f :: outer) :
    s.abandon (count + 1) =
      ⟨outer, f.before ++
        [f.tag.element (s.abandon count).nodes (f.start.spanTo s.here)],
          (s.abandon count).notes ++ [f.missing], s.here⟩ := by
  have hdrop : s.frames.drop (count + 1) = outer := by
    rw [← List.tail_drop, hframes, List.tail_cons]
  have hget : s.frames[count]? = some f := by
    have hfirst := congrArg (·[0]?) hframes
    simpa [List.getElem?_drop] using hfirst
  have htake : s.frames.take (count + 1) = s.frames.take count ++ [f] := by
    rw [List.take_add_one, hget, Option.toList_some]
  simp [abandon, hdrop, htake, gather_append, gather]

/-- Where content ends without its end tag, the innermost open element is given
up. -/
theorem step_abandon {count : Nat} {f : Frame} {outer : List Frame}
    (hframes : s.frames.drop count = f :: outer)
    (hend : endsContent (s.abandon count).opened s.here.rest = true)
    (hother : opensEndTag f.tag.name s.here.rest = false) :
    (s.abandon count).step o = some (s.abandon (count + 1)) := by
  have hhere : (s.abandon count).here = s.here := rfl
  rw [step_of_leave hend hframes, abandon_succ hframes]
  simp [leave, StartTag.close, hhere, hother, Frame.missing]

/-- The elements in front of one that an end tag names, or all of them at the
end of the source, are given up one by one, and nothing else happens. -/
theorem steps_abandon {inner outer : List Frame}
    (hframes : s.frames = inner ++ outer)
    (hend : s.here.rest = [] ∨
      ∃ f ∈ outer, opensEndTag f.tag.name s.here.rest = true)
    (hother : ∀ f ∈ inner, opensEndTag f.tag.name s.here.rest = false) :
    ∀ count ≤ inner.length, s.steps o count = some (s.abandon count) := by
  intro count
  induction count with
  | zero =>
      intro _
      rw [abandon_zero]
      rfl
  | succ count ih =>
      intro hcount
      obtain ⟨f, more, hinner⟩ : ∃ f more, inner.drop count = f :: more :=
        ⟨_, _, List.drop_eq_getElem_cons (by omega)⟩
      have hdrop : s.frames.drop count = f :: (more ++ outer) := by
        rw [hframes, List.drop_append_of_le_length (by omega), hinner,
          List.cons_append]
      have hends : endsContent (s.abandon count).opened s.here.rest = true := by
        rcases hend with hnil | ⟨g, hg, hopens⟩
        · simp [endsContent, hnil]
        -- the element that the end tag names is still among the open ones
        · have hmem : g ∈ (s.abandon count).frames := by
            simp [abandon, hdrop, hg]
          simp only [endsContent, opened, Bool.or_eq_true, List.any_map,
            List.any_eq_true]
          exact Or.inr ⟨g, hmem, hopens⟩
      have hf : f ∈ inner :=
        List.mem_of_mem_drop (by rw [hinner]; exact List.mem_cons_self)
      rw [steps, Machine.steps_succ (ih (by omega))]
      exact step_abandon hdrop hends (hother f hf)

/-- The element that the end tag names is closed by it. -/
theorem step_close {count : Nat} {f : Frame} {outer : List Frame}
    {name : String} {next : Cursor} (hframes : s.frames.drop count = f :: outer)
    (hopens : opensEndTag f.tag.name s.here.rest = true)
    (htag : endTag? s.here = some (name, next)) :
    (s.abandon count).step o =
      some ⟨outer, f.before ++
        [f.tag.element (s.abandon count).nodes (f.start.spanTo next)],
          (s.abandon count).notes, next⟩ := by
  have hhere : (s.abandon count).here = s.here := rfl
  have hend : endsContent (s.abandon count).opened s.here.rest = true := by
    simp [endsContent, opened, abandon, hframes, hopens]
  rw [step_of_leave hend hframes]
  simp [leave, StartTag.close, hhere, hopens, htag]

/-- An end tag reaches through the elements opened inside the one it names and
closes that one. -/
theorem steps_close {f : Frame} {inner outer : List Frame} {name : String}
    {next : Cursor} (hframes : s.frames = inner ++ f :: outer)
    (hopens : opensEndTag f.tag.name s.here.rest = true)
    (hinner : ∀ g ∈ inner, opensEndTag g.tag.name s.here.rest = false)
    (htag : endTag? s.here = some (name, next)) :
    (∀ count ≤ inner.length, s.steps o count = some (s.abandon count)) ∧
      s.steps o (inner.length + 1) = some
        ⟨outer, f.before ++
          [f.tag.element (s.abandon inner.length).nodes (f.start.spanTo next)],
            s.notes ++ inner.map Frame.missing, next⟩ := by
  have hsteps : ∀ count ≤ inner.length,
      s.steps o count = some (s.abandon count) :=
    steps_abandon hframes (Or.inr ⟨f, List.mem_cons_self, hopens⟩) hinner
  have hdrop : s.frames.drop inner.length = f :: outer := by simp [hframes]
  have hnotes : (s.abandon inner.length).notes =
      s.notes ++ inner.map Frame.missing := by
    simp [abandon, hframes]
  refine ⟨hsteps, ?_⟩
  rw [steps, Machine.steps_succ (hsteps _ (Nat.le_refl _)),
    step_close hdrop hopens htag, hnotes]

/-- At the end of the source all open elements are given up, and then the
reader stops. -/
theorem steps_end (hnil : s.here.rest = []) :
    (∀ count ≤ s.frames.length, s.steps o count = some (s.abandon count)) ∧
      s.steps o (s.frames.length + 1) = none := by
  have hsteps : ∀ count ≤ s.frames.length,
      s.steps o count = some (s.abandon count) :=
    steps_abandon (List.append_nil _).symm (Or.inl hnil)
      (by simp [hnil, opensEndTag])
  refine ⟨hsteps, ?_⟩
  rw [steps, Machine.steps_succ (hsteps _ (Nat.le_refl _))]
  simp [step, abandon, opened, endsContent, hnil]

def diagnostics (s : Reader) : List Diagnostic :=
  s.notes.filterMap Note.diagnostic?

theorem diagnostics_take (s : Reader) (item : Siblings) :
    (s.take item).diagnostics = s.diagnostics ++ item.diagnostics := by
  simp [diagnostics, take, Siblings.diagnostics]

theorem diagnostics_enter (s : Reader) (tag : StartTag) :
    (s.enter tag).diagnostics = s.diagnostics ++ tag.problems := by
  simp [diagnostics, enter, StartTag.notes, List.filterMap_cons,
    Function.comp_def]

theorem diagnostics_leave (s : Reader) (f : Frame) (outer : List Frame) :
    (s.leave f outer).diagnostics =
      s.diagnostics ++ (f.tag.close s.here).1 := by
  simp [diagnostics, leave, Function.comp_def]

end Reader

theorem Leaf.eq_unmatched {o : ReadOptions} {mode : TextMode} {c : Cursor}
    {item : Siblings} {name : String} {span : Span} (h : Leaf o mode c item)
    (hmem : .unmatchedClosingTag name span ∈ item.diagnostics) :
    ∃ next, item = .unmatched name c next ∧ endTag? c = some (name, next) ∧
      span = c.spanTo next := by
  cases h with
  | comment =>
      simp only [Siblings.comment, Siblings.diagnostics] at hmem
      split at hmem <;> simp at hmem
  | cdata =>
      simp only [Siblings.cdata, Siblings.diagnostics] at hmem
      split at hmem <;> simp at hmem
  | unmatched _ hend =>
      simp only [Siblings.unmatched, Siblings.diagnostics, List.filterMap_cons,
        Note.diagnostic?_problem, List.filterMap_nil, List.mem_singleton,
        Diagnostic.unmatchedClosingTag.injEq] at hmem
      obtain ⟨rfl, rfl⟩ := hmem
      exact ⟨_, rfl, hend, rfl⟩
  | interpolation =>
      simp only [Siblings.interpolation, Siblings.diagnostics] at hmem
      split at hmem <;> simp at hmem
  | text => simp [Siblings.text, Siblings.diagnostics] at hmem

/-- A step reports an end tag only if no open element has its name. -/
theorem Reader.Step.unmatched {o : ReadOptions} {s t : Reader} (h : s.Step o t)
    (hnames : ∀ f ∈ s.frames, isTagName f.tag.name.toList = true)
    {name : String} {span : Span}
    (hmem : .unmatchedClosingTag name span ∈ t.diagnostics) :
    .unmatchedClosingTag name span ∈ s.diagnostics ∨
      ∃ next, t = s.take (.unmatched name s.here next) ∧
        endTag? s.here = some (name, next) ∧ span = s.here.spanTo next ∧
        ∀ f ∈ s.frames, foldCase f.tag.name ≠ foldCase name := by
  have hnone : ∀ ds : List Diagnostic, ds.filter Diagnostic.isUnmatched = [] →
      .unmatchedClosingTag name span ∉ ds := by
    intro ds hds hd
    simpa [Diagnostic.isUnmatched] using List.filter_eq_nil_iff.mp hds _ hd
  cases h with
  | leave =>
      rw [Reader.diagnostics_leave] at hmem
      exact Or.inl
        ((List.mem_append.mp hmem).resolve_right
          (hnone _ (StartTag.filter_close _ _)))
  | leaf hgoes hleaf =>
      rw [Reader.diagnostics_take] at hmem
      refine (List.mem_append.mp hmem).imp_right fun hmem => ?_
      obtain ⟨next, hitem, hend, hspan⟩ := hleaf.eq_unmatched hmem
      refine ⟨next, by rw [hitem], hend, hspan, fun f hf hfold => ?_⟩
      have hopens := (opensEndTag_iff_of_endTag? (hnames f hf) hend).mpr hfold
      simp only [endsContent, Bool.or_eq_false_iff, List.any_eq_false] at hgoes
      exact hgoes.2 f.tag.name (List.mem_map_of_mem hf) hopens
  | @alone _ problems htag hproblems =>
      have hothers : problems.filter Diagnostic.isUnmatched = [] := by
        rcases hproblems with rfl | rfl <;> rfl
      rw [Reader.diagnostics_take, StartTag.diagnostics_alone] at hmem
      refine Or.inl ((List.mem_append.mp hmem).resolve_right (hnone _ ?_))
      rw [List.filter_append, StartTag.filter_problems htag, hothers,
        List.nil_append]
  | enter htag =>
      rw [Reader.diagnostics_enter] at hmem
      exact Or.inl ((List.mem_append.mp hmem).resolve_right
        (hnone _ (StartTag.filter_problems htag)))

/-- In some state of the run an end tag of that name stands at that stretch and
is passed over, and no open element has the name. -/
def Reader.MeetsStray (o : ReadOptions) (source name : String)
    (span : Span) : Prop :=
  ∃ s next, (Reader.start source).Reaches o s ∧
    s.step o = some (s.take (.unmatched name s.here next)) ∧
    endTag? s.here = some (name, next) ∧ span = s.here.spanTo next ∧
    ∀ f ∈ s.frames, foldCase f.tag.name ≠ foldCase name

theorem Reader.Reaches.meetsStray {o : ReadOptions}
    {source name : String} {span : Span} {s : Reader}
    (h : (Reader.start source).Reaches o s)
    (hmem : .unmatchedClosingTag name span ∈ s.diagnostics) :
    Reader.MeetsStray o source name span := by
  have hrun := h.invariant
    (P := fun s => (Reader.start source).Reaches o s ∧
      (.unmatchedClosingTag name span ∈ s.diagnostics →
        Reader.MeetsStray o source name span))
    (fun s t hs hstep =>
      ⟨hs.1.trans (Machine.Reaches.of_step hstep), fun hmem => ?_⟩)
    ⟨.refl, by simp [Reader.diagnostics, Reader.start]⟩
  · exact hrun.2 hmem
  · rcases (Reader.step_cases hstep).unmatched
      (Reader.isTagName_opened hs.1) hmem with
      hbefore | ⟨next, rfl, hend, hspan, hnames⟩
    · exact hs.2 hbefore
    · exact ⟨s, next, hs.1, hstep, hend, hspan, hnames⟩

/-- The innermost of the open elements with a property. -/
theorem exists_innermost {p : Frame → Bool} {frames : List Frame} {f : Frame}
    (hf : f ∈ frames) (hp : p f = true) :
    ∃ inner g outer, frames = inner ++ g :: outer ∧ p g = true ∧
      ∀ other ∈ inner, p other = false := by
  cases hfind : frames.find? p with
  | none =>
      rw [List.find?_eq_none] at hfind
      exact absurd hp (hfind f hf)
  | some g =>
      obtain ⟨hg, inner, outer, hframes, hinner⟩ :=
        List.find?_eq_some_iff_append.mp hfind
      exact ⟨inner, g, outer, hframes, hg, by simpa using hinner⟩

/-- An end tag closes the innermost open element of its name, and every element
opened inside that one ends in front of the end tag, the innermost first, with
one complaint each.  At the end of the source this happens to all elements that
are open.  End tags are reported only if no open element has their name. -/
theorem Reader.closes_innermost (o : ReadOptions) (source : String) :
    let begins := Reader.start source
    let t := Template.read o source
    (∃ last, begins.Reaches o last ∧ last.step o = none ∧
      last.nodes = t.root.children ∧
      last.notes = t.notes) ∧
    (∀ s, begins.Reaches o s →
      (∀ spelled rest, s.here.rest = '<' :: '/' :: (spelled ++ rest) →
        endsName rest = true →
        (∃ f ∈ s.frames, foldCase f.tag.name = spelled.map Char.toLower) →
        ∃ inner f outer next, s.frames = inner ++ f :: outer ∧
          (∀ g ∈ inner, foldCase g.tag.name ≠ spelled.map Char.toLower) ∧
          foldCase f.tag.name = spelled.map Char.toLower ∧
          endTag? s.here = some (String.ofList spelled, next) ∧
          (∀ count ≤ inner.length, s.steps o count = some (s.abandon count)) ∧
          s.steps o (inner.length + 1) = some
            ⟨outer, f.before ++ [f.tag.element (s.abandon inner.length).nodes
              (f.start.spanTo next)], s.notes ++ inner.map Frame.missing,
              next⟩) ∧
      (s.here.rest = [] →
        (∀ count ≤ s.frames.length, s.steps o count = some (s.abandon count)) ∧
          s.steps o (s.frames.length + 1) = none)) ∧
    ∀ name span, .unmatchedClosingTag name span ∈ t.diagnostics →
      Reader.MeetsStray o source name span := by
  intro begins t
  have hlast := Reader.reaches_last o source
  refine ⟨hlast, fun s hs => ⟨?_, Reader.steps_end⟩, ?_⟩
  · rintro spelled rest hrest hends ⟨f, hf, hfold⟩
    have hnames := Reader.isTagName_opened hs
    have htag :=
      endTag?_of_name (isTagName_of_map_toLower hfold.symm (hnames f hf))
        hends hrest
    have hopens : ∀ g ∈ s.frames, opensEndTag g.tag.name s.here.rest = true ↔
        foldCase g.tag.name = spelled.map Char.toLower := by
      intro g hg
      rw [opensEndTag_iff_of_endTag? (hnames g hg) htag]
      simp [foldCase]
    obtain ⟨inner, g, outer, hframes, hg, hinner⟩ :=
      exists_innermost (p := fun f => opensEndTag f.tag.name s.here.rest) hf
        ((hopens f hf).mpr hfold)
    refine ⟨inner, g, outer, _, hframes, ?_,
      (hopens g (by simp [hframes])).mp hg, htag,
      Reader.steps_close hframes hg hinner htag⟩
    intro other hother hsame
    have hmem : other ∈ s.frames := by simp [hframes, hother]
    simpa [hinner other hother] using (hopens other hmem).mpr hsame
  · intro name span hmem
    obtain ⟨last, hreaches, _, _, hnotes⟩ := hlast
    apply hreaches.meetsStray
    rw [Reader.diagnostics, hnotes]
    exact hmem

/-- An end tag reaches over an element that is still open, and names another
one in other letter cases. -/
theorem Reader.closes_innermost_nested :
    let o : ReadOptions := ⟨.condense, 3⟩
    ∃ s t, (Reader.start "<a><B><c>x</b>").Reaches o s ∧
      s.opened = ["c", "B", "a"] ∧
      s.here.rest = "</b>".toList ∧ s.steps o 2 = some t ∧
      t.opened = ["a"] := by
  intro o
  have heval : ((Reader.start "<a><B><c>x</b>").steps o 4).map
      (fun s => (s.opened, s.here.rest)) =
      some (["c", "B", "a"], "</b>".toList) := by decide +kernel
  obtain ⟨s, hsteps, hs⟩ := Option.map_eq_some_iff.mp heval
  simp only [Prod.mk.injEq] at hs
  obtain ⟨hopened, hrest⟩ := hs
  have hopen : ∃ f ∈ s.frames,
      foldCase f.tag.name = ['b'].map Char.toLower := by
    have hmem : "B" ∈ s.opened := by simp [hopened]
    obtain ⟨f, hf, hname⟩ := List.mem_map.mp hmem
    exact ⟨f, hf, by rw [hname]; decide⟩
  obtain ⟨inner, f, outer, next, hframes, hinner, hf, _, _, hlast⟩ :=
    ((Reader.closes_innermost o "<a><B><c>x</b>").2.1 s ⟨4, hsteps⟩).1 ['b']
      ['>'] hrest rfl hopen
  rw [Reader.opened, hframes] at hopened
  rcases inner with _ | ⟨g, _ | ⟨h, _⟩⟩
  · simp only [List.nil_append, List.map_cons, List.cons.injEq] at hopened
    rw [hopened.1] at hf
    exact absurd hf (by decide)
  · simp only [List.cons_append, List.nil_append, List.map_cons,
      List.cons.injEq] at hopened
    exact ⟨s, _, ⟨4, hsteps⟩, by simp [Reader.opened, hframes, hopened], hrest,
      hlast, hopened.2.2⟩
  · simp only [List.cons_append, List.map_cons, List.cons.injEq] at hopened
    have hother := hinner h (by simp)
    rw [hopened.2.1] at hother
    exact absurd (by decide) hother

end MarkupTemplate
