/-
What the arguments of the command ask for.

An argument is first taken apart into words, none of which depends on the
arguments before it.  The words are then followed in order, and the first that
asks for help or cannot be followed decides.
-/

namespace MarkupTemplate.Command

/-- A part of the arguments. -/
inductive Word where
  | operand (text : String)
  /-- The end of the options: only operands follow. -/
  | separator
  | help
  | verbose
  | tree
  | strict
  | config (path : String)
  /-- A configuration whose path is the next argument. -/
  | configNext
  | unknown
  deriving Repr, DecidableEq

/-- The words of the letters behind a single dash.  A path may stand right
behind its letter, with or without an equals sign. -/
def letterWords : List Char → List Word
  | [] => []
  | 'v' :: cs => .verbose :: letterWords cs
  | 'h' :: cs => .help :: letterWords cs
  | ['c'] => [.configNext]
  | 'c' :: '=' :: path => [.config (String.ofList path)]
  | 'c' :: path => [.config (String.ofList path)]
  | _ => [.unknown]

/-- The word of a name behind two dashes and of the value given with it. -/
def longWord : String → Option String → Word
  | "help", none => .help
  | "verbose", none => .verbose
  | "ast", none => .tree
  | "strict", none => .strict
  | "config", none => .configNext
  | "config", some path => .config path
  | _, _ => .unknown

/-- What stands behind the first equals sign. -/
def attachedValue? (cs : List Char) : Option String :=
  (cs.dropWhile (· != '=')).tail?.map String.ofList

/-- The words of an argument.  A dash alone is an operand. -/
def argumentWords (argument : String) : List Word :=
  match argument.toList with
  | '-' :: '-' :: cs =>
      [longWord (String.ofList (cs.takeWhile (· != '='))) (attachedValue? cs)]
  | '-' :: c :: cs => letterWords (c :: cs)
  | _ => [.operand argument]

def words : List String → List Word
  | [] => []
  | argument :: arguments =>
      if argument = "--" then .separator :: arguments.map .operand
      else argumentWords argument ++ words arguments

structure Options where
  /-- The template; without a path it is read from the standard input. -/
  input : Option String := none
  config : Option String := none
  /-- Whether the tree is printed in place of the code. -/
  tree : Bool := false
  strict : Bool := false
  verbosity : Nat := 0
  deriving Repr, DecidableEq, Inhabited

/-- Why there is no run. -/
inductive Detour where
  | help
  | misuse
  deriving Repr, DecidableEq

namespace Options

/-- A path is given once, and it is not empty. -/
def path? (before : Option String) (path : String) :
    Except Detour (Option String) :=
  if before.isSome ∨ path = "" then .error .misuse else .ok (some path)

/-- Follow words in order. -/
def follow (o : Options) : List Word → Except Detour Options
  | [] => .ok o
  | .help :: _ => .error .help
  | .unknown :: _ => .error .misuse
  | .separator :: ws => follow o ws
  | .verbose :: ws => follow { o with verbosity := o.verbosity + 1 } ws
  | .tree :: ws =>
      if o.tree then .error .misuse else follow { o with tree := true } ws
  | .strict :: ws =>
      if o.strict then .error .misuse else follow { o with strict := true } ws
  | .operand path :: ws => do
      let input ← path? o.input path
      follow { o with input } ws
  | .config path :: ws => do
      let config ← path? o.config path
      follow { o with config } ws
  | .configNext :: .operand path :: ws => do
      let config ← path? o.config path
      follow { o with config } ws
  | .configNext :: _ => .error .misuse

def read (arguments : List String) : Except Detour Options :=
  follow {} (words arguments)

end Options

example : Options.read ["-vvc=a.toml", "--ast", "--", "-"] =
    .ok { input := some "-", config := some "a.toml", tree := true,
          verbosity := 2 } := by
  rfl

example : Options.read ["-c", "--help"] = .error .misuse := by rfl

def helpText : String :=
  String.join <| [
    "Compile HTML-like templates into render functions",
    "",
    "Usage: template-compiler [OPTIONS] [INPUT]",
    "",
    "Arguments:",
    "  [INPUT]  Input file (reads from stdin if not provided)",
    "",
    "Options:",
    "  -c, --config <CONFIG>  Compiler configuration file (TOML format)",
    "      --ast              Print the parsed template tree instead of generated code",
    "      --strict           Fail when the parser reports any diagnostic",
    "  -v, --verbose...       Increase log verbosity (-v info, -vv debug, -vvv trace)",
    "  -h, --help             Print help"].map (· ++ "\n")

end MarkupTemplate.Command
