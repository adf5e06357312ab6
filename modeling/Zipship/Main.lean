import Zipship.Command.Run
import Zipship.Shell.Launcher

/-!
# The program

`main` takes a picture of the working directory, carries out the command line on it, shows what was
written, and brings the directory to the state that was left. Test runners are scripts of the
library's own shell. Symbolic links can be neither read nor made from here, so `main` stops before
it changes anything if there is one, at the start or in the state that is left.
-/

namespace Zipship

/-- The permission bits that a file is taken to have: scripts may be run. -/
def assumedMode (content : Bytes) : Nat :=
  if [0x23, 0x21].isPrefixOf content then 0o755 else Tree.newFileMode

/-- What somebody is told about a symbolic link. -/
def linkFailure (path : String) : IO.Error := .userError s!"symbolic link: {path}"

/-- Put what stands at an entry of a real directory, and everything below it, into a tree. -/
partial def takePicture (t : Tree) (loc : Loc) (entry : IO.FS.DirEntry) : IO Tree := do
  match (← entry.path.symlinkMetadata).type with
  | .dir =>
    let mut t := t.put loc .dir
    for e in ← entry.path.readDir do
      t ← takePicture t (loc ++ [Bytes.ofString e.fileName]) e
    return t
  | .symlink => throw (linkFailure entry.path.toString)
  | .file =>
    let content := (← IO.FS.readBinFile entry.path).data.toList
    return t.put loc (.file content (assumedMode content))
  | .other => return t

/-- The permissions that some bits stand for. -/
def rightsOf (mode : Nat) : IO.FileRight :=
  let right (shift : Nat) : IO.AccessRight :=
    ⟨(mode >>> shift) &&& 4 ≠ 0, (mode >>> shift) &&& 2 ≠ 0, (mode >>> shift) &&& 1 ≠ 0⟩
  ⟨right 6, right 3, right 0⟩

/-- The path of a location. -/
def realPath (l : Loc) : String := l.path.shown

/-- Refuse a state with a new link in it. -/
def refuseLinks (dir : Loc) (after : Tree) : IO Unit := do
  for e in after.below dir do
    match e.2 with
    | .link _ => throw (linkFailure (realPath (dir ++ e.1)))
    | _ => pure ()

/-- Remove what is gone, the contents of a directory before the directory. -/
def removeGone (dir : Loc) (before after : Tree) : IO Unit := do
  for e in (before.sortedBelow dir).reverse do
    let l := dir ++ e.1
    if (after.get? l).isNone then
      if e.2 = .dir then IO.FS.removeDir (realPath l) else IO.FS.removeFile (realPath l)

/-- Make what is new or different, a directory before its contents. -/
def makeNew (dir : Loc) (before after : Tree) : IO Unit := do
  for e in after.sortedBelow dir do
    let l := dir ++ e.1
    if before.get? l ≠ some e.2 then
      match e.2 with
      | .dir => IO.FS.createDir (realPath l)
      | .file content mode =>
        IO.FS.writeBinFile (realPath l) ⟨content.toArray⟩
        IO.setAccessRights (realPath l) (rightsOf mode)
      | .link _ | .device _ => pure ()

/-- The variables that matter to a command. -/
def surroundings : IO Environment := do
  let names := ["ZIPSHIP_PYTHON", "ZIPSHIP_NAME", "ZIPSHIP_SRC", "PATH", "HOME"]
  let values ← names.mapM fun n => return (n, ← IO.getEnv n)
  return values.filterMap fun v => v.2.map fun value => (Bytes.ofString v.1, Bytes.ofString value)

end Zipship

open Zipship in
def main (args : List String) : IO UInt32 := do
  let start ← IO.monoNanosNow
  let here ← IO.currentDir
  let dir := Path.pieces ⟨here.toString⟩
  let mut before := Tree.placeAll [] [.dir ⟨here.toString⟩] Shell.system
  for e in ← here.readDir do
    before ← takePicture before (dir ++ [Bytes.ofString e.fileName]) e
  let host : Host := ⟨dir, ← surroundings, Shell.launcher dir⟩
  let result := Command.run host ⟨0, 0⟩ args before
  refuseLinks dir result.machine.tree
  removeGone dir before result.machine.tree
  makeNew dir before result.machine.tree
  -- a run is a function of its surroundings, so its texts can be asked for once its time is known
  let elapsed := Display.Duration.ofParts 0 ((← IO.monoNanosNow) - start)
  let shown := Command.run host elapsed args before
  (← IO.getStdout).write ⟨shown.out.toArray⟩
  (← IO.getStderr).write ⟨shown.err.toArray⟩
  return UInt32.ofNat shown.code
