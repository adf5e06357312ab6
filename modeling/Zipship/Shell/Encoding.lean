import Zipship.Path.Basic

/-!
# Texts of scripts

A shell works on bytes, whatever they stand for. Its texts have one character for each byte, the
one whose code point is the byte.
-/

namespace Zipship.Shell

/-- The text of some bytes. -/
def ofBytes (b : Bytes) : String := String.ofList (b.map fun byte => Char.ofNat byte.toNat)

/-- The bytes of a text. -/
def toBytes (s : String) : Bytes := s.toList.map fun c => UInt8.ofNat c.toNat

/-- The path that a text spells. -/
def pathOf (s : String) : Path := ⟨toBytes s⟩

/-- A path as a text. -/
def spelled (p : Path) : String := ofBytes p.bytes

end Zipship.Shell
