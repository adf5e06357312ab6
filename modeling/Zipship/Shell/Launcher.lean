import Zipship.Shell.Interpreter
import Zipship.Shell.System

/-!
# Launching programs

A program is looked for along the search path unless its name holds a slash. What is found has to be
a file that may be run: one of the programs of the machine, or a script whose first line names its
interpreter.
-/

namespace Zipship.Shell

/-- How many programs may start each other, and how many interpreters may be in between. -/
def maxDepth : Nat := 8

/-- A session that starts in a directory. What cuts words is not taken from others. -/
def session (l : Call) (cwd : Loc) (t : Tree) (name : String) (args : List String) : Session :=
  ⟨t, cwd, l.env.filter fun e => e.1 ≠ "IFS", name, args, 0, [], [], [], 0, none⟩

/-- How a session ended. -/
def endOf (s : Session) : Ended :=
  ⟨s.ended.getD (.ofCode s.status), s.out, s.err, s.tree⟩

/-- Run the text of a script. -/
def runText (start : Start) (s : Session) (text : String) : Ended :=
  match Script.parse? text with
  | some script => endOf (run start script s)
  | none => endOf ((s.done 2).complain s!"{s.name}: 1: Syntax error")

/-- Run the shell, called by a name, with some arguments. -/
def runShell (start : Start) (l : Call) (cwd : Loc) (t : Tree) (name : String)
    (args : List String) : Ended :=
  match args with
  | "-c" :: text :: rest =>
    runText start (session l cwd t (rest.head?.getD name) rest.tail) text
  | file :: rest =>
    match t.read cwd (pathOf file) with
    | .ok content => runText start (session l cwd t file rest) (ofBytes content)
    | .error e =>
      let s := session l cwd t name []
      let why := unreached e "No such file"
      if e = .isDirectory then endOf s
      else endOf ((s.done 2).complainHere s!"cannot open {file}: {why}")
  | [] => endOf (session l cwd t name [])

/-- Run a program with some variables set. -/
def runEnv (start : Start) (l : Call) (cwd : Loc) (t : Tree) : List String → Ended
  | [] =>
    let lines := l.env.map fun e => ofBytes e.1 ++ "=" ++ ofBytes e.2 ++ "\n"
    endOf ((session l cwd t "env" []).say (String.join lines))
  | a :: args =>
    match a.splitOn "=" with
    | name :: first :: rest =>
      let value := toBytes (String.intercalate "=" (first :: rest))
      runEnv start { l with env := l.env.set (toBytes name) value } cwd t args
    | _ =>
      let s := session l cwd t "env" []
      match start { l with program := a, args } t with
      | .ok e => e
      | .error e =>
        endOf ((s.done (if e = .notFound then 127 else 126)).complain s!"env: '{a}': {reason e}")

/-- Run one of the programs of the machine, called by a name. -/
def runInstalled (start : Start) (l : Call) (cwd : Loc) (t : Tree) (program : Name)
    (name : String) (args : List String) : Ended :=
  if program = "sh" then runShell start l cwd t name args
  else if program = "env" then runEnv start l cwd t args
  else match utility? (ofBytes program) with
    | some f => endOf (f (session l cwd t name []) args)
    | none => endOf (session l cwd t name [])

/-- The interpreter that the first line of a script names, and its argument. -/
def interpreter? (content : Bytes) : Option (String × List String) :=
  match content with
  | 0x23 :: 0x21 :: rest =>
    let line := rest.takeWhile (· ≠ 10)
    let isBlank (b : UInt8) : Bool := b = 32 || b = 9
    let line := line.dropWhile isBlank
    let line := (line.reverse.dropWhile isBlank).reverse
    let path := line.takeWhile (!isBlank ·)
    let arg := (line.dropWhile (!isBlank ·)).dropWhile isBlank
    if path = [] then none else some (ofBytes path, if arg = [] then [] else [ofBytes arg])
  | _ => none

/-- Run the file at a path, called by a name; `fuel` bounds the interpreters in between. -/
def runFile (start : Start) (l : Call) (cwd : Loc) (t : Tree) :
    Nat → Path → String → List String → Except OsError Ended
  | 0, _, _, _ => .error .tooManyLinks
  | fuel + 1, p, name, args => do
    let pos ← t.resolve cwd p
    match t.get? pos.loc with
    | some (.file content mode) =>
      if !(Node.file content mode).isExecutable then .error .permissionDenied
      else if pos.loc.dropLast = programDirectory ∧ content = programContent then
        return runInstalled start l cwd t (pos.loc.getLast?.getD []) name args
      else match interpreter? content with
        | some (path, first) =>
          runFile start l cwd t fuel (pathOf path) path (first ++ spelled p :: args)
        | none => .error .notExecutable
    | _ => .error .permissionDenied

/-- Try the directories of the search path one after another. The first one with a file that can be
run decides; otherwise a file that may not be run is worse than none. -/
def runFound (start : Start) (l : Call) (cwd : Loc) (t : Tree) (denied : Bool) :
    List String → Except OsError Ended
  | [] => .error (if denied then .permissionDenied else .notFound)
  | dir :: rest =>
    let found := (pathOf dir).child (toBytes l.program)
    match runFile start l cwd t maxDepth found l.program l.args with
    | .ok e => .ok e
    | .error e =>
      if e = .permissionDenied then runFound start l cwd t true rest
      else if e = .notFound ∨ e = .notDirectory then runFound start l cwd t denied rest
      else .error e

/-- A text with the character that ends a string for the operating system. -/
def hasNul (s : String) : Bool := s.toList.contains '\x00'

/-- Launch a program; `fuel` bounds how many programs start each other. -/
def launch (base : Loc) : Nat → Call → Tree → Except OsError Ended
  | 0, _, _ => .error (.code 11)
  | fuel + 1, l, t => do
    if hasNul l.program || l.args.any hasNul || l.env.any (fun e => e.2.contains 0) ||
      l.cwd.hasNul then .error .nulInArgument
    let pos ← t.resolve base l.cwd
    if t.get? pos.loc ≠ some .dir then .error .notDirectory
    let start := launch base fuel
    if l.program.toList.contains '/' then
      runFile start l pos.loc t maxDepth (pathOf l.program) l.program l.args
    else if l.program.isEmpty then .error .notFound
    else if Tree.maxNameBytes < l.program.length then .error .nameTooLong
    else runFound start l pos.loc t false (searchPath.splitOn ":")

/-- The call that a launch is. -/
def Call.ofLaunch (l : Launch) : Call :=
  ⟨ofBytes l.program, l.args.map fun arg => ofBytes (Bytes.ofString arg), l.env, l.cwd⟩

/-- The machine's own launcher, for a process in the directory `base`. -/
def launcher (base : Loc) : Launcher := fun _ l t => launch base maxDepth (.ofLaunch l) t

end Zipship.Shell
