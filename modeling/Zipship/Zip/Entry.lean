import Zipship.Text.Bytes
import Zipship.Tree.OsError

/-!
# Entries of an archive

An entry is a directory, or a file with its content. Of the permissions only one thing is kept:
whether a file may be run. Two entries cannot have the same name; that, and what an operation on the
file of the archive fails with, are the errors of a writer.
-/

namespace Zipship.Zip

/-- What an entry is. -/
inductive Body where
  | directory
  | file (content : Bytes) (executable : Bool)
  deriving DecidableEq, Repr

/-- An entry of an archive. -/
structure Entry where
  /-- The names that lead to the entry with slashes between them; a directory has one at the end. -/
  name : String
  body : Body
  deriving DecidableEq, Repr

namespace Body

/-- The kind and the permission bits of an entry. -/
def mode : Body → Nat
  | directory => 0o040755
  | file _ true => 0o100755
  | file _ false => 0o100644

/-- The unpacked content of an entry. -/
def content : Body → Bytes
  | directory => []
  | file content _ => content

end Body

/-- Why an archive could not be written. -/
inductive Error where
  | io (cause : OsError)
  /-- There is an entry of that name already. -/
  | duplicate (name : String)
  deriving DecidableEq, Repr

/-- The wording of an error. -/
def Error.message : Error → String
  | io cause => s!"i/o error: {cause.message}"
  | duplicate name => s!"invalid Zip archive: Duplicate filename: {name}"

/-- The names with slashes between them. -/
def joinNames (names : List String) : String := String.intercalate "/" names

/-- The name of a directory's entry: a slash is added unless a separator ends the name already. -/
def directoryName (names : List String) : String :=
  let name := joinNames names
  if name.toList.getLast? = some '/' ∨ name.toList.getLast? = some '\\' then name else name ++ "/"

end Zipship.Zip
