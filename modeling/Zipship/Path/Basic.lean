import Zipship.Text.Shown

/-!
# Spelled paths

A `Path` is a row of bytes as somebody wrote it, text or not; nothing in it is resolved. `pieces`
are the parts between slashes that are not empty. `components` reads them as steps: a piece `.`
means nothing except at the very start of a relative path. Two paths are `same` when their
components are equal, `join` appends a path to another unless it is absolute, and `isBelow` compares
whole components.
-/

namespace Zipship

/-- The name of a file, directory or link inside its directory. -/
abbrev Name := Bytes

namespace Name

/-- The piece of a path that stays where it is. -/
def here : Name := "."

/-- The piece of a path that goes back. -/
def up : Name := ".."

end Name

/-- A path as it is spelled. -/
structure Path where
  bytes : Bytes
  deriving DecidableEq, Repr, Inhabited

/-- One step of a path. -/
inductive Component where
  /-- The leading slash. -/
  | root
  /-- A leading `.` of a relative path. -/
  | here
  /-- The piece `..`. -/
  | up
  | name (n : Name)
  deriving DecidableEq, Repr

/-- The byte between the names of a path. -/
def slash : UInt8 := 0x2f

/-- The parts between slashes, empty ones included. -/
def splitSlash : Bytes → List Name
  | [] => [[]]
  | b :: bs =>
    if b = slash then [] :: splitSlash bs
    else match splitSlash bs with
      | [] => [[b]]
      | p :: ps => (b :: p) :: ps

/-- The names with slashes between them. -/
def joinSlash (names : List Name) : Bytes := [slash].intercalate names

namespace Component

/-- The bytes of a component. -/
def bytes : Component → Bytes
  | root => "/"
  | here => Name.here
  | up => Name.up
  | name n => n

/-- The step that a piece other than `.` stands for. -/
def ofPiece (piece : Name) : Component := if piece = Name.up then up else name piece

end Component

namespace Path

/-- The path holds a slash at its very start. -/
def isAbsolute (p : Path) : Bool := p.bytes.head? = some slash

/-- The path holds a slash at its very end. -/
def endsWithSlash (p : Path) : Bool := p.bytes.getLast? = some slash

/-- The parts between slashes that are not empty. -/
def pieces (p : Path) : List Name := (splitSlash p.bytes).filter (· ≠ [])

/-- The steps of a path. -/
def components (p : Path) : List Component :=
  let steps := (p.pieces.filter (· ≠ Name.here)).map Component.ofPiece
  if p.isAbsolute then .root :: steps
  else if p.pieces.head? = some Name.here then .here :: steps
  else steps

/-- The two paths have the same components. -/
def same (p q : Path) : Bool := p.components = q.components

/-- `p` is `q` or continues it by whole components. -/
def isBelow (p q : Path) : Bool := q.components.isPrefixOf p.components

/-- `q` seen from `p`: itself when it is absolute, otherwise appended behind one slash. -/
def join (p q : Path) : Path :=
  if q.isAbsolute then q
  else if p.bytes.isEmpty || p.endsWithSlash then ⟨p.bytes ++ q.bytes⟩
  else ⟨p.bytes ++ slash :: q.bytes⟩

/-- The path of an entry of the directory `p`. -/
def child (p : Path) (n : Name) : Path := p.join ⟨n⟩

/-- The path reached by going down through entries of these names. -/
def descend (p : Path) (names : List Name) : Path := names.foldl child p

/-- The shortest spelling of some components. -/
def ofComponents : List Component → Path
  | .root :: rest => ⟨slash :: joinSlash (rest.map Component.bytes)⟩
  | cs => ⟨joinSlash (cs.map Component.bytes)⟩

/-- The path without its last component; `none` for the empty path and for the root. -/
def parent? (p : Path) : Option Path :=
  match p.components.getLast? with
  | none | some .root => none
  | some _ => some (ofComponents p.components.dropLast)

/-- What remains of `p` behind the components of `base`, if `p` is below it. -/
def strip? (base p : Path) : Option Path :=
  if p.isBelow base then some (ofComponents (p.components.drop base.components.length)) else none

/-- The path as it is shown to somebody who is at `base`. -/
def relativeTo (base p : Path) : Path := (strip? base p).getD p

/-- The path holds the byte that ends a string for the operating system. -/
def hasNul (p : Path) : Bool := p.bytes.contains 0

/-- The path as it is shown. -/
def shown (p : Path) : String := p.bytes.shown

end Path

end Zipship
