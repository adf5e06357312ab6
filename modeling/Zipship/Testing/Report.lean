import Zipship.Path.Basic
import Zipship.Tree.OsError

/-!
# What running the tests tells
-/

namespace Zipship.Testing

/-- How a run of the tests ended. -/
structure Report where
  /-- The invocation of the runner as one line. -/
  command : String
  coverage : Bool
  success : Bool
  exitCode : Int
  deriving DecidableEq, Repr

/-- Why the runner was not started. -/
inductive Error where
  | coverageConfigNotFound (path : Path)
  | spawn (program : String) (cause : OsError)
  deriving DecidableEq, Repr

namespace Error

/-- The wording of an error. -/
def message : Error → String
  | coverageConfigNotFound path => s!"coverage config not found: {path.shown}"
  | spawn program cause => s!"failed to run {program}: {cause.message}"

end Error

end Zipship.Testing
