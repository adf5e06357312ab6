import Zipship.Config.Validity
import Zipship.Tree.OsError

/-!
# Why a configuration cannot be loaded
-/

namespace Zipship.Config

/-- Why a configuration cannot be loaded. -/
inductive Error where
  /-- The project directory cannot be reached. -/
  | root (dir : Path) (cause : OsError)
  /-- The file is there but cannot be read. -/
  | read (file : Path) (cause : OsError)
  /-- The file is not a document of its format. -/
  | malformed (file : Path)
  /-- The document holds something that a configuration does not have. -/
  | unfit (file : Path) (reason : String)
  | invalid (fault : Fault)
  deriving DecidableEq, Repr

namespace Error

/-- What precedes the place of a fault in a document. -/
def parseErrorHeading : String := "TOML parse error"

/-- The wording of an error without what caused it, or the whole of it when nothing else did. -/
def message : Error → String
  | root dir cause => s!"project directory {dir.shown} is not accessible: {cause.message}"
  | read file cause => s!"failed to read {file.shown}: {cause.message}"
  | malformed file => s!"failed to parse {file.shown}: {parseErrorHeading}\n"
  | unfit file reason => s!"failed to parse {file.shown}: {parseErrorHeading}\n{reason}\n"
  | invalid fault => s!"invalid configuration: {fault.message}"

/-- What lies beneath an error: the operating system's word, or the reader's. -/
def cause? : Error → Option String
  | root _ cause | read _ cause => some cause.message
  | malformed _ => some s!"{parseErrorHeading}\n"
  | unfit _ reason => some s!"{parseErrorHeading}\n{reason}\n"
  | invalid _ => none

end Error

end Zipship.Config
