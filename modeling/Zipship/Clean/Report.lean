import Zipship.Path.Basic
import Zipship.Tree.OsError

/-!
# What cleaning tells
-/

namespace Zipship.Clean

/-- What was removed, or would be removed in a dry run. -/
structure Report where
  removed : List Path
  /-- The bytes that the removed files and links held. -/
  bytesFreed : Nat
  dryRun : Bool
  deriving DecidableEq, Repr

/-- Why a project could not be cleaned. -/
inductive Error where
  | scan (path : Path) (reason : String)
  | delete (path : Path) (cause : OsError)
  deriving DecidableEq, Repr

namespace Error

/-- The wording of an error. -/
def message : Error → String
  | scan path reason => s!"failed to scan {path.shown}: {reason}"
  | delete path cause => s!"failed to delete {path.shown}: {cause.message}"

end Error

end Zipship.Clean
