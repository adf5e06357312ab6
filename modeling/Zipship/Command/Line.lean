import Zipship.Config.Layers
import Zipship.Run.Host

/-!
# Command lines

A command line is read from left to right. Options that say where and what the project is may stand
before or behind the command; behind it they win. Everything after `--` belongs to the test runner.
A line that does not fit is refused as a whole, and a question for help or for the version is
answered where it is met.

The words of a line are taken to be texts. A directory whose path is no text can be worked in, but
not be named on a line.
-/

namespace Zipship

/-- How results are shown. -/
inductive Format where
  | text
  | json
  deriving DecidableEq, Repr

/-- The commands. -/
inductive Subcommand where
  | perform (task : Task)
  /-- Several tasks in one plan. -/
  | run
  /-- The list of all tasks. -/
  | tasks
  deriving DecidableEq, Repr

namespace Subcommand

/-- The command of a name. -/
def ofName? (name : String) : Option Subcommand :=
  if name = "run" then some run
  else if name = "tasks" then some tasks
  else (Task.ofName? name).map perform

/-- The command may be followed by arguments for the test runner. -/
def takesTestArgs : Subcommand → Bool
  | perform .test | perform .testWithCoverage | run => true
  | _ => false

end Subcommand

/-- The options that every command has. -/
structure CommonOptions where
  directory : Option Path
  python : Option String
  name : Option String
  src : Option Path
  output : Option Format
  verbose : Bool
  deriving DecidableEq, Repr

namespace CommonOptions

/-- No option is given. -/
def none : CommonOptions := ⟨.none, .none, .none, .none, .none, false⟩

/-- Each option from the first ones that have it. -/
def orElse (a b : CommonOptions) : CommonOptions :=
  ⟨a.directory <|> b.directory, a.python <|> b.python, a.name <|> b.name, a.src <|> b.src,
    a.output <|> b.output, a.verbose || b.verbose⟩

end CommonOptions

/-- What a command line asks for. -/
structure CommandLine where
  options : CommonOptions
  command : Subcommand
  /-- The tasks that are named one by one. -/
  named : List Task
  dryRun : Bool
  testArgs : List String
  deriving DecidableEq, Repr

/-- Why a line is not carried out. -/
inductive Refusal where
  | usage
  | help
  | version
  deriving DecidableEq, Repr

namespace CommandLine

/-- How much of a line was read. -/
structure Draft where
  /-- The options in front of the command, and those behind it. -/
  before : CommonOptions
  behind : CommonOptions
  command : Option Subcommand
  named : List Task
  dryRun : Bool
  deriving DecidableEq, Repr

namespace Draft

/-- Nothing was read. -/
def empty : Draft := ⟨.none, .none, none, [], false⟩

/-- The options that are being read. -/
def options (d : Draft) : CommonOptions := if d.command.isSome then d.behind else d.before

/-- The draft with other options at the place that is being read. -/
def withOptions (d : Draft) (o : CommonOptions) : Draft :=
  if d.command.isSome then { d with behind := o } else { d with before := o }

end Draft

/-- The argument looks like an option. -/
def looksLikeOption (arg : String) : Bool := arg.startsWith "-" && arg ≠ "-"

/-- Set an option that may be given once. -/
def once {α : Type} (old : Option α) (new : α) : Except Refusal (Option α) :=
  if old.isSome then .error .usage else .ok (some new)

/-- A path that is given by an option. -/
def givenPath (value : String) : Except Refusal Path :=
  if value.isEmpty then .error .usage else .ok ⟨value⟩

/-- A format that is given by an option. -/
def givenFormat : String → Except Refusal Format
  | "text" => .ok .text
  | "json" => .ok .json
  | _ => .error .usage

/-- The names of the options that have a value. -/
def valued : List String := ["directory", "python", "name", "src", "output"]

/-- Set an option that has a value. -/
def setValue (o : CommonOptions) (option value : String) : Except Refusal CommonOptions :=
  match option with
  | "directory" => return { o with directory := ← once o.directory (← givenPath value) }
  | "python" => return { o with python := ← once o.python value }
  | "name" => return { o with name := ← once o.name value }
  | "src" => return { o with src := ← once o.src (← givenPath value) }
  | "output" => return { o with output := ← once o.output (← givenFormat value) }
  | _ => .error .usage

/-- Set an option to the value that is attached to it, or else to the next argument. -/
def readValue (d : Draft) (option : String) (attached : Option String) (rest : List String) :
    Except Refusal (Draft × List String) :=
  match attached, rest with
  | some value, _ => return (d.withOptions (← setValue d.options option value), rest)
  | none, value :: rest =>
    if looksLikeOption value then .error .usage
    else return (d.withOptions (← setValue d.options option value), rest)
  | none, [] => .error .usage

/-- Turn on more messages. -/
def readVerbose (d : Draft) : Except Refusal Draft :=
  if d.options.verbose then .error .usage
  else .ok (d.withOptions { d.options with verbose := true })

/-- A long option, without its dashes. -/
def readLong (d : Draft) (option : String) (attached : Option String) (rest : List String) :
    Except Refusal (Draft × List String) :=
  if valued.contains option then readValue d option attached rest
  else if attached.isSome then .error .usage
  else match option with
    | "verbose" => return (← readVerbose d, rest)
    | "help" => .error .help
    | "version" => .error (if d.command.isSome then .usage else .version)
    | "dry-run" =>
      if d.command = some (.perform .clean) ∧ !d.dryRun then
        return ({ d with dryRun := true }, rest)
      else .error .usage
    | _ => .error .usage

/-- The value behind a letter, without the sign that may stand between them. -/
def attachedValue : List Char → Option String
  | [] => none
  | '=' :: cs | cs => some (String.ofList cs)

/-- Short options, each a letter. One that has a value takes the rest for it. -/
def readShort (rest : List String) : List Char → Draft → Except Refusal (Draft × List String)
  | [], d => .ok (d, rest)
  | 'v' :: cs, d => do readShort rest cs (← readVerbose d)
  | 'C' :: cs, d => readValue d "directory" (attachedValue cs) rest
  | 'o' :: cs, d => readValue d "output" (attachedValue cs) rest
  | 'h' :: _, _ => .error .help
  | 'V' :: _, d => .error (if d.command.isSome then .usage else .version)
  | _ :: _, _ => .error .usage

/-- A word that is no option: the command, or a task to run. -/
def readWord (d : Draft) (word : String) (rest : List String) :
    Except Refusal (Draft × List String) :=
  match d.command with
  | none =>
    match Subcommand.ofName? word with
    | some c => return ({ d with command := some c }, rest)
    | none =>
      if word = "help" then
        .error (if rest.all fun r => (Subcommand.ofName? r).isSome || r = "help" then .help
          else .usage)
      else .error .usage
  | some .run =>
    match Task.ofName? word with
    | some t => return ({ d with named := d.named ++ [t] }, rest)
    | none => .error .usage
  | some _ => .error .usage

/-- An argument, with those behind it. -/
def readArg (d : Draft) (arg : String) (rest : List String) :
    Except Refusal (Draft × List String) :=
  match arg.toList with
  | '-' :: '-' :: option =>
    let name := option.takeWhile (· ≠ '=')
    let attached := match option.dropWhile (· ≠ '=') with
      | _ :: value => some (String.ofList value)
      | [] => none
    readLong d (String.ofList name) attached rest
  | '-' :: c :: cs => readShort rest (c :: cs) d
  | _ => readWord d arg rest

/-- The line of a draft and the arguments behind `--`. -/
def finish (d : Draft) (testArgs : List String) : Except Refusal CommandLine :=
  match d.command with
  | none => .error .usage
  | some command =>
    if (testArgs ≠ [] ∧ !command.takesTestArgs) ∨ (command = .run ∧ d.named = []) then
      .error .usage
    else return ⟨d.behind.orElse d.before, command, d.named, d.dryRun, testArgs⟩

/-- Read the arguments that are left; `fuel` bounds their number. -/
def readAll : Nat → Draft → List String → Except Refusal CommandLine
  | 0, d, _ | _, d, [] => finish d []
  | fuel + 1, d, arg :: rest =>
    if arg = "--" then finish d rest
    else do
      let (d, rest) ← readArg d arg rest
      readAll fuel d rest

/-- Read a command line. -/
def parse (args : List String) : Except Refusal CommandLine := readAll args.length .empty args

/-- The directory of the project. -/
def directory (l : CommandLine) : Path := l.options.directory.getD ⟨"."⟩

/-- How results are shown. -/
def format (l : CommandLine) : Format := l.options.output.getD .text

/-- What is set in the configuration. -/
def overrides (l : CommandLine) : Config.Overrides :=
  ⟨l.options.python, l.options.name, l.options.src⟩

/-- The tasks that are asked for. -/
def requests (l : CommandLine) : List Task :=
  match l.command with
  | .perform task => [task]
  | .run => l.named
  | .tasks => []

/-- What a run is asked for beside its tasks. -/
def runOptions (l : CommandLine) : RunOptions := ⟨l.dryRun, l.testArgs⟩

end CommandLine

end Zipship
