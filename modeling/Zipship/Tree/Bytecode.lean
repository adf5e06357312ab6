import Zipship.Path.Extension
import Zipship.Tree.Basic

/-!
# What an interpreter leaves beside its sources
-/

namespace Zipship

/-- An entry of this name was made by an interpreter: a directory for compiled files, or anything
else with the extension of one. -/
def Node.isBytecode (name : Name) : Node → Bool
  | .dir => name = Name.cacheDirectory
  | _ => name.isBytecode

end Zipship
