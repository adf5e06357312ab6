import Zipship.Deflate.Decoder
import Zipship.Digest.Crc32
import Zipship.Text.Bytes

/-!
# Reading archives

`read?` finds the end record of an archive, goes through the directory it points to, and unpacks
every entry. It reads the fields of the first version of the format only, not the longer ones.
-/

namespace Zipship.Zip

/-- What the directory of an archive says about an entry, with the unpacked content. -/
structure Item where
  name : String
  method : Nat
  /-- The kind and the permission bits. -/
  mode : Nat
  crc : Nat
  date : Nat
  time : Nat
  content : Bytes
  deriving Repr

/-- The marks that a local record, a central record and the end record start with. -/
def localMark : Bytes := [0x50, 0x4b, 3, 4]

def centralMark : Bytes := [0x50, 0x4b, 1, 2]

def endMark : Bytes := [0x50, 0x4b, 5, 6]

/-- The number in `size` bytes at a position. -/
def field (b : Array UInt8) (pos size : Nat) : Nat :=
  Bytes.readLe (b.extract pos (pos + size)).toList

/-- The bytes at a position are the given ones. -/
def hasMark (mark : Bytes) (b : Array UInt8) (pos : Nat) : Bool :=
  (b.extract pos (pos + mark.length)).toList = mark

/-- The last position before `pos` where the bytes are the given ones. -/
def lastMark? (mark : Bytes) (b : Array UInt8) : Nat → Option Nat
  | 0 => none
  | pos + 1 => if hasMark mark b pos then some pos else lastMark? mark b pos

/-- The unpacked form of some bytes. -/
def unpack? (method : Nat) (packed : Bytes) : Option Bytes :=
  if method = 0 then some packed
  else if method = 8 then Deflate.decompress? packed
  else none

/-- The content whose local record is at a position, unpacked. -/
def content? (b : Array UInt8) (method packedSize pos : Nat) : Option Bytes :=
  let start := pos + 30 + field b (pos + 26) 2 + field b (pos + 28) 2
  if hasMark localMark b pos ∧ start + packedSize ≤ b.size then
    unpack? method (b.extract start (start + packedSize)).toList
  else none

/-- The entry whose central record is at a position, and the position behind the record. -/
def item? (b : Array UInt8) (pos : Nat) : Option (Item × Nat) := do
  let method := field b (pos + 10) 2
  let crc := field b (pos + 16) 4
  let nameSize := field b (pos + 28) 2
  let next := pos + 46 + nameSize + field b (pos + 30) 2 + field b (pos + 32) 2
  let name ← Bytes.toString? (b.extract (pos + 46) (pos + 46 + nameSize)).toList
  let content ← content? b method (field b (pos + 20) 4) (field b (pos + 42) 4)
  if hasMark centralMark b pos ∧ next ≤ b.size ∧ (Digest.crc32 content).toNat = crc then
    some (⟨name, method, field b (pos + 38) 4 / 65536, crc, field b (pos + 14) 2,
      field b (pos + 12) 2, content⟩, next)
  else none

/-- The entries of some central records in a row, the first one at a position. -/
def items? (b : Array UInt8) : Nat → Nat → Option (List Item)
  | 0, _ => some []
  | count + 1, pos => do
    let (item, next) ← item? b pos
    let items ← items? b count next
    some (item :: items)

/-- The entries of an archive, in the order of its directory. Its end record has 22 bytes and may
have a comment behind it. -/
def read? (b : Array UInt8) : Option (List Item) := do
  let pos ← lastMark? endMark b (b.size - 21)
  items? b (field b (pos + 10) 2) (field b (pos + 16) 4)

end Zipship.Zip
