import Zipship.Command.Display
import Zipship.Run.Execution

/-!
# Carrying out command lines

`run` is the whole program: from the arguments, the surroundings and the tree to what is written,
the exit code and the tree that is left. How long a run takes is given, since it decides nothing but
the last line.
-/

namespace Zipship.Command

/-- What a command wrote to its two outputs, the code it ended with, and the machine it left. -/
structure Result where
  code : Nat
  out : Bytes
  err : Bytes
  machine : Machine

/-- The code of a process, which has eight bits: any other code becomes one. -/
def processCode (code : Int) : Nat := if 0 ≤ code ∧ code ≤ 255 then code.toNat else 1

/-- What somebody is told when the configuration cannot be loaded, with what lies beneath. -/
def loadFailure (e : Config.Error) : String :=
  let beneath := match e.cause? with
    | some cause => ": " ++ cause
    | none => ""
  Display.failure ("Failed to load configuration: " ++ e.message ++ beneath)

/-- A command that changes nothing. -/
def still (code : Nat) (out err : String) (t : Tree) : Result :=
  ⟨code, Bytes.ofString out, Bytes.ofString err, ⟨t, []⟩⟩

/-- The code at the end of a run: that of its report, unless a document is asked for that there is
not. -/
def endingCode (format : Format) (r : RunReport) : Nat :=
  if format = .json ∧ r.toJson?.isNone then 1 else processCode r.exitCode

/-- Execute a plan and show what happens. -/
def perform (host : Host) (elapsed : Display.Duration) (c : Config) (options : RunOptions)
    (format : Format) (plan : List Task) (t : Tree) : Result :=
  let (report, m) := executePlan host c options plan ⟨t, []⟩
  ⟨endingCode format report,
    m.log.flatMap (Display.event format c.root) ++
      Bytes.ofString (Display.ending format elapsed report),
    m.log.flatMap Display.eventErrors ++ Bytes.ofString (Display.endingErrors format report), m⟩

/-- Carry out a command line. -/
def carryOut (host : Host) (elapsed : Display.Duration) (l : CommandLine) (t : Tree) : Result :=
  if l.command = .tasks then still 0 (Display.taskList l.format .standard) "" t
  else match Config.load t host.cwd host.env l.directory l.overrides with
    | .error e => still 1 "" (loadFailure e) t
    | .ok c =>
      match Graph.standard.plan l.requests with
      | .error task =>
        let e := Task.Error.cycleDetected task
        still 1 "" (Display.failure ("Failed to plan tasks: " ++ e.message)) t
      | .ok plan => perform host elapsed c l.runOptions l.format plan t

/-- The whole program. -/
def run (host : Host) (elapsed : Display.Duration) (args : List String) (t : Tree) : Result :=
  match CommandLine.parse args with
  | .ok l => carryOut host elapsed l t
  | .error .version => still 0 Display.version "" t
  | .error .help => still 0 Display.usage "" t
  | .error .usage => still 2 "" Display.usage t

end Zipship.Command
