/-
The command: what a run prints and how it ends.

A run reads its files and its standard input through `Inputs`, in any monad, so
that the same definition works on the files of a machine and on a list of them.
The configuration is read before the template.
-/
import MarkupTemplate.Command.Options
import MarkupTemplate.Compile
import MarkupTemplate.Report
import MarkupTemplate.Settings

namespace MarkupTemplate.Command

inductive FileError where
  | missing
  | directory
  | other (description : String)
  deriving Repr, DecidableEq

def FileError.message : FileError → String
  | missing => "No such file or directory (os error 2)"
  | directory => "Is a directory (os error 21)"
  | other description => description

/-- What a run can read. -/
structure Inputs (m : Type → Type) where
  file : String → m (Except FileError String)
  stdin : m (Except FileError String)

/-- What a run prints and how it ends. -/
structure Outcome where
  exit : Nat := 0
  stdout : String := ""
  stderr : String := ""
  log : List Event := []
  deriving Repr, DecidableEq

namespace Outcome

def failure (message : String) : Outcome :=
  { exit := 1, stderr := message }

def ofDetour : Detour → Outcome
  | .help => { stdout := helpText }
  | .misuse => { exit := 2 }

/-- The run ends before the template is read. -/
def badConfig (path cause : String) : Outcome :=
  failure ("Error loading config '" ++ path ++ "': " ++ cause)

end Outcome

/-- The settings of a run: those of its configuration, which an option makes
strict. -/
def Options.adjust (o : Options) (settings : Settings) : Settings :=
  { settings with strict := settings.strict || o.strict }

/-- Whether events of a level are logged. -/
def Options.logs (o : Options) : Level → Bool
  | .warn => true
  | .info => 1 ≤ o.verbosity
  | .debug => 2 ≤ o.verbosity
  | .trace => 3 ≤ o.verbosity

def Options.inputName (o : Options) : String := o.input.getD "<stdin>"

def reports (name source : String) (diagnostics : List Diagnostic) : String :=
  String.join (diagnostics.map (·.report source name))

def printTree (settings : Settings) (name source : String) : Outcome :=
  let template := Template.read settings.reading source
  { stdout := template.root.outline
    stderr := reports name source template.diagnostics
    log := template.events }

def printCode (settings : Settings) (name source : String) : Outcome :=
  let log := compileEvents settings source
  match compile settings source with
  | .ok compiled =>
      { stdout := compiled.code ++ "\n"
        stderr := reports name source compiled.diagnostics
        log }
  | .error (.problems diagnostics) =>
      { exit := 1
        stderr := reports name source diagnostics
          ++ "Error: " ++ toString diagnostics.length
          ++ " parse error(s) in strict mode\n"
        log }
  | .error e => { exit := 1, stderr := "Error: " ++ e.message ++ "\n", log }

/-- The outcome for a template that was read. -/
def Options.outcome (o : Options) (settings : Settings)
    (source : String) : Outcome :=
  let all := if o.tree then printTree settings o.inputName source
    else printCode settings o.inputName source
  { all with log := all.log.filter (o.logs ·.level) }

variable {m : Type → Type} [Monad m]

def Inputs.settings (inputs : Inputs m) (o : Options) :
    m (Except Outcome Settings) :=
  match o.config with
  | none => pure (.ok (o.adjust {}))
  | some path => do
      match ← inputs.file path with
      | .error e =>
          pure (.error (.badConfig path
            ("Failed to read config file: " ++ e.message ++ "\n")))
      | .ok config =>
          match Settings.load? config with
          | none =>
              pure (.error (.badConfig path "Failed to parse config TOML"))
          | some settings => pure (.ok (o.adjust settings))

def Inputs.source (inputs : Inputs m) (o : Options) :
    m (Except Outcome String) :=
  match o.input with
  | none => do
      match ← inputs.stdin with
      | .error e =>
          pure (.error (.failure
            ("Error reading from stdin: " ++ e.message ++ "\n")))
      | .ok source => pure (.ok source)
  | some path => do
      match ← inputs.file path with
      | .error e =>
          pure (.error (.failure
            ("Error reading file '" ++ path ++ "': " ++ e.message ++ "\n")))
      | .ok source => pure (.ok source)

def run (inputs : Inputs m) (arguments : List String) : m Outcome :=
  match Options.read arguments with
  | .error detour => pure (.ofDetour detour)
  | .ok o => do
      match ← inputs.settings o with
      | .error outcome => pure outcome
      | .ok settings =>
          match ← inputs.source o with
          | .error outcome => pure outcome
          | .ok source => pure (o.outcome settings source)

end MarkupTemplate.Command
