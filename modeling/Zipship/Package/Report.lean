import Zipship.Path.Basic
import Zipship.Zip.Entry

/-!
# What packaging tells
-/

namespace Zipship.Package

/-- What was packaged. -/
structure Report where
  artifact : Path
  /-- The interpreter that the artifact names. -/
  interpreter : String
  /-- How many entries the archive has. -/
  entries : Nat
  sizeBytes : Nat
  /-- The digest of the artifact in hexadecimal. -/
  sha256 : String
  /-- The archive holds the module that an interpreter starts with. -/
  hasEntryPoint : Bool
  deriving DecidableEq, Repr

/-- Why a project could not be packaged. -/
inductive Error where
  | sourceNotFound (source : Path)
  | sourceNotDirectory (source : Path)
  /-- The source directory could not be gone through. -/
  | walk (path : Path) (reason : String)
  /-- An entry could not be added to the archive, or the archive not be closed. -/
  | archive (path : Path) (cause : Zip.Error)
  | io (path : Path) (cause : OsError)
  /-- The artifact could not be read back. -/
  | hash (path : Path) (cause : OsError)
  deriving DecidableEq, Repr

namespace Error

/-- The wording of an error. -/
def message : Error → String
  | sourceNotFound source => s!"source directory not found: {source.shown}"
  | sourceNotDirectory source => s!"source path is not a directory: {source.shown}"
  | walk path reason => s!"failed to walk {path.shown}: {reason}"
  | archive path cause => s!"failed to archive {path.shown}: {cause.message}"
  | io path cause => s!"i/o error on {path.shown}: {cause.message}"
  | hash path cause => s!"failed to read {path.shown}: {cause.message}"

end Error

end Zipship.Package
