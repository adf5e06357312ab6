import Zipship.Digest.Sha256
import Zipship.Tree.Resolve
import Zipship.Tree.Edit

/-!
# Digests of files

A file is read in pieces, and its digest is computed from them one after another.
-/

namespace Zipship.Digest

/-- How many bytes are read at once at most. -/
def readSize : Nat := 8192

/-- The digest, in hexadecimal, of a content that arrives in pieces. -/
def hashPieces (pieces : List Bytes) : String := hex (pieces.foldl Hasher.update .initial).digest

/-- The digest of the file that a path leads to. -/
def hashFile (t : Tree) (cwd : Loc) (p : Path) : Except OsError String := do
  let content ← t.read cwd p
  return hashPieces (Bytes.pieces readSize content)

end Zipship.Digest
