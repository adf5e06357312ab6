import Zipship.Run.Machine
import Zipship.Shell.Utility

/-!
# Running scripts

A script is run in a session. Commands that are not utilities are launched as programs, by a
function that the caller gives, so that a script may start other scripts.
-/

namespace Zipship.Shell

/-- Where an output of a command leads. -/
inductive Sink where
  | output
  | errors
  | file (l : Loc)
  deriving DecidableEq, Repr

namespace Session

/-- Write to the end of a sink. -/
def deliver (s : Session) (sink : Sink) (b : Bytes) : Session :=
  if b.isEmpty then s
  else match sink with
    | .output => { s with out := s.out ++ b }
    | .errors => { s with err := s.err ++ b }
    | .file l =>
      let before := ((s.tree.get? l).map Node.content).getD []
      match Tree.write l (before ++ b) s.tree with
      | .ok (_, tree) => { s with tree }
      | .error _ => s

/-- Apply redirections to what a command reads and to its two outputs; `none` if a file cannot be
opened. -/
def redirect : List Redirect → Sink × Sink → Session → Option (Sink × Sink) × Session
  | [], sinks, s => (some sinks, s)
  | r :: rest, (out, err), s =>
    let lead (sink : Sink) : Sink × Sink := if r.stream = 2 then (out, sink) else (sink, err)
    let failed (p : String) (e : OsError) : Option (Sink × Sink) × Session :=
      let why := unreached e "Directory nonexistent"
      (none, (s.done 2).complainHere s!"cannot create {p}: {why}")
    match r.target with
    | .output n => redirect rest (lead (if n = 2 then err else out)) s
    | .input w =>
      let p := s.expandText w
      match s.tree.read s.cwd (pathOf p) with
      | .ok input => redirect rest (out, err) { s with input }
      | .error e =>
        if e = .isDirectory then redirect rest (out, err) { s with input := [] }
        else
          let why := unreached e "No such file"
          (none, (s.done 2).complainHere s!"cannot open {p}: {why}")
    | .file w =>
      let p := s.expandText w
      match Tree.create s.cwd (pathOf p) s.tree with
      | .ok (l, tree) => redirect rest (lead (.file l)) { s with tree }
      | .error e => failed p e
    | .append w =>
      let p := s.expandText w
      -- opening a file at its end keeps what it holds
      match Tree.create s.cwd (pathOf p) s.tree with
      | .ok (l, tree) =>
        redirect rest (lead (.file l))
          { s with tree := if (s.tree.get? l).isSome then s.tree else tree }
      | .error e => failed p e

end Session

/-- The numbers of the signals that scripts send. -/
def signalNumbers : List (String × Nat) :=
  [("HUP", 1), ("INT", 2), ("QUIT", 3), ("ILL", 4), ("TRAP", 5), ("ABRT", 6), ("BUS", 7),
    ("FPE", 8), ("KILL", 9), ("USR1", 10), ("SEGV", 11), ("USR2", 12), ("PIPE", 13), ("ALRM", 14),
    ("TERM", 15), ("STKFLT", 16), ("CHLD", 17), ("CONT", 18), ("STOP", 19), ("TSTP", 20),
    ("TTIN", 21), ("TTOU", 22), ("URG", 23), ("XCPU", 24), ("XFSZ", 25), ("VTALRM", 26),
    ("PROF", 27), ("WINCH", 28), ("IO", 29), ("PWR", 30), ("SYS", 31)]

/-- Signals that do not end a process. -/
def harmless : List Nat := [17, 18, 23, 28]

/-- The number of a signal, given by name or number. -/
def signal? (s : String) : Option Nat :=
  match s.toNat? with
  | some n => some n
  | none => signalNumbers.lookup (if s.startsWith "SIG" then (s.drop 3).toString else s)

/-- Send a signal, of which only the session's own process is ever the receiver. -/
def kill (s : Session) (args : List String) : Session :=
  let (signal, targets) : Option Nat × List String := match args with
    | "-s" :: name :: rest => (signal? name, rest)
    | a :: rest => if a.startsWith "-" then (signal? (a.drop 1).toString, rest) else (some 15, args)
    | [] => (none, [])
  match signal with
  | some n =>
    if !targets.contains (toString Session.processId) then
      (s.done 1).complainHere "kill: No such process\n"
    else if n ≠ 0 && !harmless.contains n then { s.done 0 with ended := some (.ofSignal n) }
    else s.done 0
  | none => (s.done 2).complainHere "kill: bad signal"

/-- Commands that change the session itself. -/
def special? (name : String) : Option (Session → List String → Session) :=
  match name with
  | "exit" => some fun s args =>
    let code := match args.head? with
      | some a => a.toNat?.getD 2
      | none => s.status
    { s.done code with ended := some (.ofCode code) }
  | "kill" => some kill
  | "cd" => some fun s args =>
    let target := args.head?.getD "/"
    let failed := (s.done 2).complainHere s!"cd: can't cd to {target}"
    match s.tree.resolve s.cwd (pathOf target) with
    | .ok pos =>
      if s.tree.get? pos.loc = some .dir then { s.done 0 with cwd := pos.loc } else failed
    | .error _ => failed
  | "export" => some fun s args =>
    args.foldl (fun s a =>
      match a.splitOn "=" with
      | name :: first :: rest =>
        s.set name (String.intercalate "=" (first :: rest))
      | _ => s) (s.done 0)
  | "unset" => some fun s args =>
    { s.done 0 with vars := s.vars.filter fun v => !args.contains (ofBytes v.1) }
  | "shift" => some fun s args =>
    { s.done 0 with args := s.args.drop ((args.head?.bind String.toNat?).getD 1) }
  | "set" => some fun s _ => s.done 0
  | "[" => some fun s args => test s args.dropLast
  | _ => none

/-- A program that a script starts, with the texts it is given. -/
structure Call where
  program : String
  args : List String
  env : Environment
  cwd : Path

/-- How a script starts a program. -/
abbrev Start := Call → Tree → Except OsError Ended

/-- The session in which a program could not be launched. -/
def unlaunched (s : Session) (program : String) (e : OsError) : Session :=
  let unfound := [OsError.notFound, .notDirectory, .tooManyLinks, .nameTooLong].contains e
  let why := unreached e "not found"
  (s.done (if unfound then 127 else 126)).complainHere s!"{program}: {why}"

/-- Run a program that is not a utility. -/
def runProgram (start : Start) (s : Session) (program : String) (args : List String) : Session :=
  match start ⟨program, args, s.vars, here s⟩ s.tree with
  | .ok e =>
    { s with
      tree := e.tree
      out := s.out ++ e.out
      err := s.err ++ e.err
      status := e.status.exitCode.toNat }
  | .error e => unlaunched s program e

/-- Become another program: the shell ends when that program does. -/
def become (start : Start) (s : Session) (program : String) (args : List String) : Session :=
  match start ⟨program, args, s.vars, here s⟩ s.tree with
  | .ok e =>
    { s with tree := e.tree, out := s.out ++ e.out, err := s.err ++ e.err, ended := some e.status }
  | .error e =>
    let s := unlaunched s ("exec: " ++ program) e
    { s with ended := some (.ofCode s.status) }

/-- Run the words of a command. -/
def runWords (start : Start) (s : Session) : List String → Session
  | [] | ["exec"] => s.done 0
  | "exec" :: program :: args => become start s program args
  | program :: args =>
    match special? program, utility? program with
    | some f, _ => f s args
    | none, some f => f s args
    | none, none => runProgram start s program args

/-- Set some variables. -/
def assign (s : Session) (assignments : List (String × Word)) : Session :=
  assignments.foldl (fun s a => s.set a.1 (s.expandText a.2)) s

/-- Run a simple command. -/
def runSimple (start : Start) (s : Session) (assignments : List (String × Word))
    (words : List Word) (redirects : List Redirect) : Session :=
  let words := words.flatMap s.expand
  let input := s.input
  match s.redirect redirects (.output, .errors) with
  | (none, s) => { s with input }
  | (some (out, err), s) =>
    if words = [] then (assign s assignments).done 0
    else
      let inner := runWords start { assign s assignments with out := [], err := [] } words
      let vars := if assignments = [] then inner.vars else s.vars
      let after := { inner with out := s.out, err := s.err, vars, input }
      (after.deliver out inner.out).deliver err inner.err

/-- Run a script, unless the shell ended already. -/
def run (start : Start) : Script → Session → Session
  | .nothing, s => s
  | .simple line assignments words redirects, s =>
    if s.ended.isSome then s else runSimple start { s with line } assignments words redirects
  | .sequence a b, s => run start b (run start a s)
  | .both a b, s =>
    let s := run start a s
    if s.status = 0 then run start b s else s
  | .either a b, s =>
    let s := run start a s
    if s.status = 0 then s else run start b s
  | .negate a, s =>
    let s := run start a s
    if s.ended.isSome then s else s.done (if s.status = 0 then 1 else 0)
  | .forEach name words body, s =>
    (words.flatMap s.expand).foldl (fun s value =>
      if s.ended.isSome then s else run start body (s.set name value)) s
  | .ifThen condition body otherwise, s =>
    let s := run start condition s
    if s.ended.isSome then s
    else if s.status = 0 then run start body s
    else run start otherwise (s.done 0)

end Zipship.Shell
