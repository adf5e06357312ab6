import Zipship.Path.Basic

/-!
# File name extensions

The extension of a name is what follows its last dot, unless nothing precedes that dot. Files that
an interpreter compiles beside its sources are known by their extension, and the directory it puts
them in by its name.
-/

namespace Zipship.Name

/-- The byte in front of an extension. -/
def dot : UInt8 := 0x2e

/-- What follows the last dot of the name, unless the dot comes first or there is none. -/
def extension? (n : Name) : Option Bytes :=
  if n = Name.up then none
  else
    match n.reverse.dropWhile (· ≠ dot) with
    | [] | [_] => none
    | _ :: _ :: _ => some (n.reverse.takeWhile (· ≠ dot)).reverse

/-- Extensions of the files that an interpreter compiles. -/
def bytecodeExtensions : List Bytes := ["pyc", "pyo"]

/-- The name of the directories that hold compiled files. -/
def cacheDirectory : Name := "__pycache__"

/-- The name has the extension of a compiled file. -/
def isBytecode (n : Name) : Bool := n.extension?.any (bytecodeExtensions.contains ·)

end Zipship.Name
