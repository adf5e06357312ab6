import Zipship.Shell.Format
import Zipship.Shell.Session
import Zipship.Tree.Edit

/-!
# Utilities of scripts

The programs that scripts use most: they write something or change the tree. A utility that meets an
error says so on its second output and ends with a code other than zero, after doing what it can.
-/

namespace Zipship.Shell

open Session

/-- What an error means, without its number. -/
def reason (e : OsError) : String :=
  match e with
  | .code n => OsError.describe n
  | other => other.message

/-- Why something at a path cannot be used; the text for a path that leads nowhere is given. -/
def unreached (e : OsError) (nowhere : String) : String :=
  if e = .notFound ∨ e = .notDirectory then nowhere else reason e

/-- Change the tree, or complain. -/
def attempt (s : Session) (edit : Edit OsError Unit) (complaint : OsError → String) : Session :=
  match edit.exec s.tree with
  | (.ok _, tree) => { s with tree }
  | (.error e, tree) => ({ s with tree, status := 1 }).complain (complaint e)

/-- Do something for each of some paths. The code at the end is zero if nothing went wrong. -/
def forPaths (s : Session) (paths : List String) (f : Session → Path → Session) : Session :=
  paths.foldl (fun s p => f s (pathOf p)) (s.done 0)

/-- The options in front of some arguments, letter by letter, and the other arguments. -/
def splitOptions (args : List String) : List Char × List String :=
  let isOption (a : String) : Bool := a.startsWith "-" && a.length > 1
  ((args.filter isOption).flatMap fun a => a.toList.tail, args.filter fun a => !isOption a)

/-- Remove files, and directories too if asked for. -/
def rm (s : Session) (args : List String) : Session :=
  let (options, paths) := splitOptions args
  let recursive := options.contains 'r' || options.contains 'R'
  let force := options.contains 'f'
  forPaths s paths fun s p =>
    match s.tree.locate s.cwd p with
    | .error e =>
      if force && e = .notFound then s
      else (s.done 1).complain s!"rm: cannot remove '{spelled p}': {reason e}"
    | .ok l =>
      if s.tree.get? l = some .dir && !recursive then
        (s.done 1).complain s!"rm: cannot remove '{spelled p}': Is a directory"
      else attempt s (Edit.step (Tree.removeAll s.cwd p)) fun e =>
        s!"rm: cannot remove '{spelled p}': {reason e}"

/-- Remove empty directories. -/
def rmdir (s : Session) (args : List String) : Session :=
  forPaths s args fun s p =>
    let failed (e : OsError) :=
      (s.done 1).complain s!"rmdir: failed to remove '{spelled p}': {reason e}"
    match s.tree.locate s.cwd p with
    | .error e => failed e
    | .ok l =>
      if s.tree.get? l ≠ some .dir then failed .notDirectory
      else if s.tree.children l ≠ [] then failed .notEmpty
      else { s with tree := s.tree.erase l }

/-- Make directories, with those above them if asked for. -/
def mkdir (s : Session) (args : List String) : Session :=
  let (options, paths) := splitOptions args
  forPaths s paths fun s p =>
    attempt s (if options.contains 'p' then Tree.makeDirAll s.cwd p
      else Edit.step (Tree.makeDir s.cwd p)) fun e =>
      s!"mkdir: cannot create directory '{spelled p}': {reason e}"

/-- Make files that are missing. -/
def touch (s : Session) (args : List String) : Session :=
  forPaths s args fun s p =>
    if s.tree.exists? s.cwd p then s
    else
      let create : Edit OsError Unit := do
        let _ ← Edit.step (Tree.create s.cwd p)
      attempt s create fun e => s!"touch: cannot touch '{spelled p}': {reason e}"

/-- Write the contents of files, or what there is to read. -/
def cat (s : Session) (args : List String) : Session :=
  forPaths s (if args = [] then ["-"] else args) fun s p =>
    if spelled p = "-" then { s with out := s.out ++ s.input, input := [] }
    else match s.tree.read s.cwd p with
      | .ok content => { s with out := s.out ++ content }
      | .error e => (s.done 1).complain s!"cat: {spelled p}: {reason e}"

/-- Make a symbolic link. -/
def ln (s : Session) (args : List String) : Session :=
  match (splitOptions args).2 with
  | [target, p] =>
    attempt (s.done 0) (Edit.step (Tree.makeLink s.cwd (pathOf p) (pathOf target))) fun e =>
      s!"ln: failed to create symbolic link '{p}': {reason e}"
  | _ => (s.done 1).complain "ln: missing file operand"

/-- The permission bits after a change written in octal digits or as `+x` and the like. -/
def changedMode (mode : Nat) (change : String) : Nat :=
  if change.toList.all Char.isDigit then
    change.toList.foldl (fun n d => 8 * n + (d.toNat - '0'.toNat)) 0
  else if change.endsWith "+x" then mode ||| Node.executeBits
  else if change.endsWith "-x" then mode &&& 0o666
  else mode

/-- Change the permission bits of files. -/
def chmod (s : Session) (args : List String) : Session :=
  match args with
  | change :: paths =>
    forPaths s paths fun s p =>
      let mode := match s.tree.stat s.cwd p with
        | .ok (.file _ mode) => mode
        | _ => 0
      attempt s (Edit.step (Tree.setMode s.cwd p (changedMode mode change))) fun e =>
        s!"chmod: cannot access '{spelled p}': {reason e}"
  | [] => (s.done 1).complain "chmod: missing operand"

/-- The path of a file that is put into a directory, or under a path that is not one. -/
def destination (s : Session) (source dest : Path) : Path :=
  if s.tree.isDir s.cwd dest then dest.child (source.pieces.getLast?.getD []) else dest

/-- Copy a file. -/
def cp (s : Session) (args : List String) : Session :=
  match (splitOptions args).2 with
  | [source, dest] =>
    let target := destination s (pathOf source) (pathOf dest)
    match s.tree.stat s.cwd (pathOf source) with
    | .error e => (s.done 1).complain s!"cp: cannot stat '{source}': {reason e}"
    | .ok (.file content mode) =>
      let copy : Edit OsError Unit := do
        let l ← Edit.step (Tree.create s.cwd target)
        Edit.step (Tree.write l content)
        Edit.step (Tree.setMode s.cwd target mode)
      attempt (s.done 0) copy fun e =>
        s!"cp: cannot create regular file '{spelled target}': {reason e}"
    | .ok _ => (s.done 1).complain s!"cp: -r not specified; omitting directory '{source}'"
  | _ => (s.done 1).complain "cp: missing file operand"

/-- Move a file or a link. -/
def mv (s : Session) (args : List String) : Session :=
  match (splitOptions args).2 with
  | [source, dest] =>
    let target := destination s (pathOf source) (pathOf dest)
    match s.tree.locate s.cwd (pathOf source) with
    | .error e => (s.done 1).complain s!"mv: cannot stat '{source}': {reason e}"
    | .ok origin =>
      match s.tree.resolveLast Tree.maxLinks (target.start s.cwd) target.route with
      | .ok (pos, some last) =>
        let place := pos.loc ++ [last]
        let moved := (origin, s.tree.get? origin) ::
          (s.tree.sortedBelow origin).map fun e => (origin ++ e.1, some e.2)
        let tree := moved.foldl (fun (t : Tree) e =>
          match e.2 with
          | some n => t.put (place ++ e.1.drop origin.length) n
          | none => t) ((s.tree.erase place).erase origin)
        { s.done 0 with tree }
      | .ok (_, none) => (s.done 1).complain s!"mv: cannot move '{source}'"
      | .error e => (s.done 1).complain s!"mv: cannot move '{source}': {reason e}"
  | _ => (s.done 1).complain "mv: missing file operand"

/-- Whether a condition on texts or on the tree holds; `none` if it is none. -/
def condition (s : Session) : List String → Option Bool
  | [] => some false
  | "!" :: rest => (condition s rest).map not
  | [a] => some (a ≠ "")
  | ["-n", a] => some (a ≠ "")
  | ["-z", a] => some (a = "")
  | ["-e", p] => some (s.tree.exists? s.cwd (pathOf p))
  | ["-d", p] => some (s.tree.isDir s.cwd (pathOf p))
  | ["-f", p] => some (s.tree.isFile s.cwd (pathOf p))
  | ["-x", p] => some (match s.tree.stat s.cwd (pathOf p) with
    | .ok n => n.isExecutable || n = .dir
    | .error _ => false)
  | ["-s", p] => some (match s.tree.stat s.cwd (pathOf p) with
    | .ok n => n.size ≠ 0
    | .error _ => false)
  | ["-L", p] | ["-h", p] => some (match s.tree.locate s.cwd (pathOf p) with
    | .ok l => match s.tree.get? l with
      | some (.link _) => true
      | _ => false
    | .error _ => false)
  | [a, "=", b] => some (a = b)
  | [a, "!=", b] => some (a ≠ b)
  | [a, op, b] => do
    let x ← a.toInt?
    let y ← b.toInt?
    match op with
    | "-eq" => some (x = y)
    | "-ne" => some (x ≠ y)
    | "-lt" => some (x < y)
    | "-le" => some (x ≤ y)
    | "-gt" => some (y < x)
    | "-ge" => some (y ≤ x)
    | _ => none
  | _ => none

/-- Test a condition. -/
def test (s : Session) (args : List String) : Session :=
  match condition s args with
  | some true => s.done 0
  | some false => s.done 1
  | none => (s.done 2).complain "test: unexpected operator"

/-- Write the arguments with blanks between them. -/
def echo (s : Session) : List String → Session
  | "-n" :: args => (s.done 0).say (text args)
  | args => (s.done 0).say (text args ++ "\n")
where
  text (args : List String) : String :=
    let joined := String.intercalate " " args
    String.ofList (unescape (joined.length + 1) joined.toList)

/-- Write arguments in a format. -/
def printf (s : Session) : List String → Session
  | format :: args => (s.done 0).say (formatted format args)
  | [] => (s.done 2).complain "printf: usage: printf format [arg ...]"

/-- Where the session is, as a path. -/
def here (s : Session) : Path := s.cwd.path

/-- The utility of a name. -/
def utility? (name : String) : Option (Session → List String → Session) :=
  match name with
  | "true" | ":" | "sleep" => some fun s _ => s.done 0
  | "false" => some fun s _ => s.done 1
  | "echo" => some echo
  | "printf" => some printf
  | "pwd" => some fun s _ => (s.done 0).say (spelled (here s) ++ "\n")
  | "cat" => some cat
  | "mkdir" => some mkdir
  | "rm" => some rm
  | "rmdir" => some rmdir
  | "touch" => some touch
  | "chmod" => some chmod
  | "cp" => some cp
  | "mv" => some mv
  | "ln" => some ln
  | "test" => some test
  | _ => none

end Zipship.Shell
