/-
How a run of the command ends.  A run that reads its configuration and its
template fails exactly if it is strict, the template has problems and the code
was asked for; the tree is printed whatever the problems are.
-/
import MarkupTemplate.Command.Outcome
import MarkupTemplate.Proofs.Compiled

namespace MarkupTemplate.Command

/-! ## Flags -/

/-- A word that stands for a long option without a value and for nothing
else. -/
structure Word.IsFlag (w : Word) (name : String) : Prop where
  long : ∀ n value, longWord n value = w ↔ n = name ∧ value = none
  short : ∀ cs, w ∉ letterWords cs
  operand : ∀ text, w ≠ .operand text
  separator : w ≠ .separator
  name : '=' ∉ name.toList

theorem strict_isFlag : Word.IsFlag .strict "strict" where
  long n value := by
    unfold longWord
    split <;> simp_all
  short cs := by fun_induction letterWords cs <;> simp_all
  operand := by simp
  separator := by simp
  name := by decide

theorem tree_isFlag : Word.IsFlag .tree "ast" where
  long n value := by
    unfold longWord
    split <;> simp_all
  short cs := by fun_induction letterWords cs <;> simp_all
  operand := by simp
  separator := by simp
  name := by decide

theorem forall_ne_sign {cs : List Char} :
    (∀ c ∈ cs, (c != '=') = true) ↔ '=' ∉ cs := by
  constructor
  · intro h hsign
    exact absurd (h '=' hsign) (by decide)
  · intro h c hc
    exact bne_iff_ne.mpr (ne_of_mem_of_not_mem hc h)

theorem attachedValue?_eq_none {cs : List Char} :
    attachedValue? cs = none ↔ '=' ∉ cs := by
  have hdrop : (cs.dropWhile (· != '=')).tail? = none ↔
      cs.dropWhile (· != '=') = [] := by
    cases cs.dropWhile (· != '=') <;> simp
  rw [attachedValue?, Option.map_eq_none_iff, hdrop, List.dropWhile_eq_nil_iff,
    forall_ne_sign]

theorem takeWhile_ne_sign {cs : List Char} (h : '=' ∉ cs) :
    cs.takeWhile (· != '=') = cs := by
  rw [List.takeWhile_eq_self_iff]
  exact forall_ne_sign.mpr h

namespace Word.IsFlag

variable {w : Word} {name : String}

theorem mem_argumentWords (h : w.IsFlag name) (argument : String) :
    w ∈ argumentWords argument ↔ argument = "--" ++ name := by
  have hspelled : argument = "--" ++ name ↔
      argument.toList = '-' :: '-' :: name.toList := by
    rw [← String.toList_inj, String.toList_append]
    rfl
  rw [hspelled]
  unfold argumentWords
  split
  · next _ cs hargument =>
      rw [hargument, List.mem_singleton, eq_comm, h.long,
        attachedValue?_eq_none]
      constructor
      · rintro ⟨rfl, hvalue⟩
        rw [takeWhile_ne_sign hvalue, String.toList_ofList]
      · intro hcs
        obtain rfl : cs = name.toList := by simpa using hcs
        exact ⟨by rw [takeWhile_ne_sign h.name, String.ofList_toList], h.name⟩
  · next _ c cs hdash hargument =>
      constructor
      · exact fun hmem => absurd hmem (h.short _)
      · rw [hargument]
        exact fun hcs => (hdash (List.cons.inj (List.cons.inj hcs).2).1).elim
  · next _ hlong _ =>
      constructor
      · exact fun hmem => absurd (List.mem_singleton.mp hmem) (h.operand _)
      · exact fun hargument => (hlong _ hargument).elim

/-- A flag is given among the arguments in front of the end of the options. -/
theorem mem_words (h : w.IsFlag name) (arguments : List String) :
    w ∈ words arguments ↔ "--" ++ name ∈ arguments.takeWhile (· != "--") := by
  induction arguments with
  | nil => simp [words]
  | cons argument arguments ih =>
      by_cases hend : argument = "--"
      · have hoperands : w ∉ arguments.map Word.operand := by
          rw [List.mem_map]
          rintro ⟨text, _, hw⟩
          exact h.operand text hw.symm
        simp [words, hend, h.separator, hoperands]
      · rw [words, if_neg hend, List.mem_append, h.mem_argumentWords, ih,
          List.takeWhile_cons, if_pos (bne_iff_ne.mpr hend), List.mem_cons,
          @eq_comm _ argument]

end Word.IsFlag

theorem exists_of_bind_eq_ok {ε α β : Type} {x : Except ε α}
    {f : α → Except ε β} {b : β} (h : x >>= f = .ok b) :
    ∃ a, x = .ok a ∧ f a = .ok b := by
  cases x with
  | error e => contradiction
  | ok a => exact ⟨a, rfl, h⟩

/-- Following words, a run becomes strict, or prints its tree, by the word for
it. -/
theorem Options.follow_flags {o o' : Options} {ws : List Word}
    (h : o.follow ws = .ok o') :
    (o'.strict = true ↔ o.strict = true ∨ .strict ∈ ws) ∧
      (o'.tree = true ↔ o.tree = true ∨ .tree ∈ ws) := by
  fun_induction Options.follow o ws with
  | case1 =>
      cases h
      simp
  | case2 | case3 | case6 | case8 | case13 => cases h
  | case4 _ _ ih => simpa using ih h
  | case5 _ _ ih => simpa using ih h
  | case7 _ _ _ ih => simpa using ih h
  | case9 _ _ _ ih => simpa using ih h
  | case10 _ _ _ ih | case11 _ _ _ ih | case12 _ _ _ ih =>
      obtain ⟨path, _, h⟩ := exists_of_bind_eq_ok h
      simpa using ih path h

/-- The options that arguments ask for: a flag is on exactly if it is given. -/
theorem Options.read_flags {arguments : List String} {o : Options}
    (h : Options.read arguments = .ok o) :
    (o.strict = true ↔ "--strict" ∈ arguments.takeWhile (· != "--")) ∧
      (o.tree = true ↔ "--ast" ∈ arguments.takeWhile (· != "--")) := by
  have hflags := Options.follow_flags h
  rw [strict_isFlag.mem_words, tree_isFlag.mem_words] at hflags
  simpa using hflags

/-! ## Outcomes -/

/-- The last line of a run that its strictness has made fail. -/
def refusal (diagnostics : List Diagnostic) : String :=
  "Error: " ++ toString diagnostics.length ++ " parse error(s) in strict mode\n"

/-- The code of a template with problems is refused in a strict run. -/
theorem printCode_of_refused {settings : Settings} {source : String}
    (name : String) (hstrict : settings.strict = true)
    (hproblems : (Template.read settings.reading source).diagnostics ≠ []) :
    let diagnostics := (Template.read settings.reading source).diagnostics
    let outcome := printCode settings name source
    outcome.exit = 1 ∧ outcome.stdout = "" ∧
      outcome.stderr = reports name source diagnostics ++
      refusal diagnostics := by
  have hcompile : compile settings source =
      .error (.problems (Template.read settings.reading source).diagnostics) :=
    if_pos ⟨hstrict, hproblems⟩
  simp [printCode, hcompile, refusal, String.append_assoc]

/-- Otherwise there is code, and it is printed. -/
theorem printCode_of_accepted {settings : Settings} {source : String}
    (name : String)
    (h : ¬ (settings.strict = true ∧
      (Template.read settings.reading source).diagnostics ≠ [])) :
    let outcome := printCode settings name source
    outcome.exit = 0 ∧
      outcome.stderr = reports name source
        (Template.read settings.reading source).diagnostics ∧
      ∃ compiled, compile settings source = .ok compiled ∧
        outcome.stdout = compiled.code ++ "\n" := by
  obtain ⟨code, hcompile⟩ : ∃ code, compile settings source =
      .ok ⟨code, (Template.read settings.reading source).diagnostics⟩ := by
    have hcode := Template.code_read settings source
    simp only [compile, hcode, if_neg h]
    exact ⟨_, rfl⟩
  simp [printCode, hcompile]

theorem Options.outcome_of_tree {o : Options} (h : o.tree = true)
    (settings : Settings) (source : String) :
    let t := Template.read settings.reading source
    let outcome := o.outcome settings source
    outcome.exit = 0 ∧ outcome.stdout = t.root.outline ∧
      outcome.stderr = reports o.inputName source t.diagnostics := by
  simp [outcome, h, printTree]

theorem Options.outcome_of_code {o : Options} (h : o.tree = false)
    (settings : Settings) (source : String) :
    let printed := printCode settings o.inputName source
    let outcome := o.outcome settings source
    outcome.exit = printed.exit ∧ outcome.stdout = printed.stdout ∧
      outcome.stderr = printed.stderr := by
  simp [outcome, h]

section

variable {m : Type → Type} [Monad m]

/-- The configuration of a run can be read and gives these settings. -/
def Inputs.Loads (inputs : Inputs m) (o : Options)
    (settings : Settings) : Prop :=
  match o.config with
  | none => settings = {}
  | some path =>
      ∃ text, inputs.file path = pure (.ok text) ∧
        Settings.load? text = some settings

def Inputs.Gives (inputs : Inputs m) (o : Options) (source : String) : Prop :=
  (match o.input with
    | none => inputs.stdin
    | some path => inputs.file path) = pure (.ok source)

variable [LawfulMonad m] {inputs : Inputs m} {o : Options}

theorem Inputs.Loads.settings_eq {settings : Settings}
    (h : inputs.Loads o settings) :
    inputs.settings o = pure (.ok (o.adjust settings)) := by
  unfold Inputs.Loads at h
  unfold Inputs.settings
  cases hconfig : o.config with
  | none =>
      rw [hconfig] at h
      rw [show settings = {} from h]
  | some path =>
      rw [hconfig] at h
      obtain ⟨text, hfile, hload⟩ := h
      simp [hfile, hload]

theorem Inputs.Gives.source_eq {source : String} (h : inputs.Gives o source) :
    inputs.source o = pure (.ok source) := by
  unfold Inputs.Gives at h
  unfold Inputs.source
  cases hinput : o.input with
  | none =>
      rw [hinput] at h
      simp [show inputs.stdin = _ from h]
  | some path =>
      rw [hinput] at h
      simp [show inputs.file path = _ from h]

theorem run_eq_outcome {arguments : List String} {settings : Settings}
    {source : String} (ho : Options.read arguments = .ok o)
    (hsettings : inputs.Loads o settings) (hsource : inputs.Gives o source) :
    run inputs arguments = pure (o.outcome (o.adjust settings) source) := by
  simp [run, ho, hsettings.settings_eq, hsource.source_eq]

end

/-- A run that can read its configuration and its template fails exactly if it
is strict, by its arguments or by its configuration, the template has problems,
and its tree was not asked for.  Otherwise it prints the tree or the code.
Either way it reports all the problems in their order. -/
theorem run_strict {m : Type → Type} [Monad m] [LawfulMonad m]
    (inputs : Inputs m) (arguments : List String) (o : Options)
    (settings : Settings) (source : String)
    (ho : Options.read arguments = .ok o) (hsettings : inputs.Loads o settings)
    (hsource : inputs.Gives o source) :
    let strict := "--strict" ∈ arguments.takeWhile (· != "--") ∨
      settings.strict = true
    let tree := "--ast" ∈ arguments.takeWhile (· != "--")
    let t := Template.read settings.reading source
    let refused := strict ∧ t.diagnostics ≠ [] ∧ ¬ tree
    let reported := reports o.inputName source t.diagnostics
    ∃ outcome, run inputs arguments = pure outcome ∧
      (refused → outcome.exit = 1 ∧ outcome.stdout = "" ∧
        outcome.stderr = reported ++ refusal t.diagnostics) ∧
      (¬ refused → outcome.exit = 0 ∧ outcome.stderr = reported ∧
        (tree → outcome.stdout = t.root.outline) ∧
        (¬ tree → ∃ compiled, compile (o.adjust settings) source =
          .ok compiled ∧
          outcome.stdout = compiled.code ++ "\n")) := by
  intro strict tree t refused reported
  obtain ⟨hstrict, htree⟩ := Options.read_flags ho
  have hadjusted : (o.adjust settings).strict = true ↔ strict := by
    simp [Options.adjust, strict, hstrict, or_comm]
  refine ⟨_, run_eq_outcome ho hsettings hsource, ?_⟩
  by_cases hasked : tree
  · obtain ⟨hexit, hstdout, hstderr⟩ :=
      Options.outcome_of_tree (htree.mpr hasked) (o.adjust settings) source
    exact ⟨fun hrefused => absurd hasked hrefused.2.2,
      fun _ =>
        ⟨hexit, hstderr, fun _ => hstdout, fun hcode => absurd hasked hcode⟩⟩
  · have hcode : o.tree = false :=
      Bool.eq_false_iff.mpr fun h => hasked (htree.mp h)
    obtain ⟨hexit, hstdout, hstderr⟩ :=
      Options.outcome_of_code hcode (o.adjust settings) source
    rw [hexit, hstdout, hstderr]
    constructor
    · rintro ⟨hon, hproblems, _⟩
      exact printCode_of_refused o.inputName (hadjusted.mpr hon) hproblems
    · intro haccepted
      have hlenient :
          ¬ ((o.adjust settings).strict = true ∧ t.diagnostics ≠ []) :=
        fun h => haccepted ⟨hadjusted.mp h.1, h.2, hasked⟩
      obtain ⟨hexit, hstderr, hcompiled⟩ :=
        printCode_of_accepted o.inputName hlenient
      exact ⟨hexit, hstderr, fun htree => absurd htree hasked,
        fun _ => hcompiled⟩

/-- A configuration makes the run strict, and an end tag closes nothing. -/
theorem run_strict_configured :
    let inputs : Inputs Id :=
      ⟨fun path => .ok (if path = "a.toml" then "strict = true" else "x</p>"),
        .ok ""⟩
    let arguments := ["-c", "a.toml", "t.html"]
    let outcome := (run inputs arguments).run
    outcome.exit = 1 ∧ outcome.stdout = "" := by
  intro inputs arguments outcome
  let o : Options := { input := some "t.html", config := some "a.toml" }
  have hsettings : inputs.Loads o { strict := true } :=
    ⟨"strict = true", rfl, by decide +kernel⟩
  have hsource : inputs.Gives o "x</p>" := rfl
  obtain ⟨result, hrun, hrefused, _⟩ :=
    run_strict inputs arguments o _ _ rfl hsettings hsource
  have hproblems : (Template.read {} "x</p>").diagnostics ≠ [] := by
    decide +kernel
  obtain ⟨hexit, hstdout, _⟩ := hrefused ⟨.inr rfl, hproblems, by decide⟩
  have hresult : outcome = result := congrArg Id.run hrun
  rw [hresult]
  exact ⟨hexit, hstdout⟩

/-- A strict run that prints the tree does not fail on a problem. -/
theorem run_tree_passes_problems :
    let inputs : Inputs Id := ⟨fun _ => .error .missing, .ok "<p>"⟩
    let outcome := (run inputs ["--ast", "--strict"]).run
    (Template.read {} "<p>").diagnostics = [.missingClosingTag "p" ⟨0, 3⟩] ∧
      outcome.exit = 0 ∧ outcome.stdout = "Root\n--Element: p\n" := by
  decide +kernel

end MarkupTemplate.Command
