import Zipship.Config.Basic
import Zipship.Digest.File
import Zipship.Package.Archive

/-!
# Packaging a project

The source directory is archived into the target directory. The artifact is a line that names the
interpreter, followed by the archive; whoever may run files may run it. The archive is removed when
the artifact holds it. A step that fails ends the whole, and what was written until then stays.
-/

namespace Zipship.Package

/-- The permission bits of an artifact. -/
def artifactMode : Nat := 0o755

/-- The source has to be a directory. -/
def checkSource (cwd : Loc) (source : Path) (t : Tree) : Except Error Unit :=
  match t.stat cwd source with
  | .error e => if e = .notFound then .error (.sourceNotFound source) else .error (.io source e)
  | .ok .dir => .ok ⟨⟩
  | .ok _ => .error (.sourceNotDirectory source)

/-- Write a line followed by the content of an archive. -/
def writeArtifact (cwd : Loc) (line : String) (archive artifact : Path) : Edit Error Unit := do
  let place ← Edit.onError (Edit.step (Tree.create cwd artifact)) (.io artifact)
  let content ← Edit.inspect fun t => (t.read cwd archive).mapError (.io archive)
  Edit.onError (Edit.step (Tree.write place (Bytes.ofString line ++ content))) (.io artifact)

/-- Remove a file unless it is gone already. -/
def removeFile (cwd : Loc) (p : Path) : Edit Error Unit := do
  match (← get).locate cwd p with
  | .error e => if e = .notFound then return else throw (.io p e)
  | .ok _ => Edit.onError (Edit.step (Tree.removeFile cwd p)) (.io p)

/-- The length of the file that a path leads to. -/
def fileSize (cwd : Loc) (p : Path) (t : Tree) : Except Error Nat :=
  ((t.stat cwd p).map Node.size).mapError (.io p)

/-- Package a project. -/
def run (cwd : Loc) (c : Config) : Edit Error Report := do
  let source := c.sourceDir
  Edit.inspect (checkSource cwd source)
  Edit.onError (Tree.makeDirAll cwd c.targetDir) (.io c.targetDir)
  let summary ← writeArchive cwd source c.archivePath c.targetDir
  let artifact := c.artifactPath
  writeArtifact cwd c.shebang c.archivePath artifact
  Edit.onError (Edit.step (Tree.setMode cwd artifact artifactMode)) (.io artifact)
  removeFile cwd c.archivePath
  let size ← Edit.inspect (fileSize cwd artifact)
  let sha256 ← Edit.inspect fun t => (Digest.hashFile t cwd artifact).mapError (.hash artifact)
  return ⟨artifact, c.python, summary.entries, size, sha256, summary.hasEntryPoint⟩

end Zipship.Package
