import Zipship.Deflate.Encoder
import Zipship.Digest.Crc32
import Zipship.Zip.Entry

/-!
# Writing archives

An archive is a local record for each entry, then a directory of central records that repeat them
with their positions, then an end record. Files are compressed, directories hold nothing. All times
are the first that the format can express, so nothing but the entries decides the bytes. Where a
number is too great for its field, the field is full, and the number stands in a longer one of a
later version of the format. Only the sizes of an entry have no longer field: `Draft.add` is for
entries whose name is new and whose sizes are no greater than `maxSize`.
-/

namespace Zipship.Zip

open Bytes (le16 le32 le64)

/-- The number of the way in which a directory, or a file, is packed. -/
def Body.method : Body → Nat
  | .directory => 0
  | .file _ _ => 8

/-- The packed content of an entry. -/
def Body.packed : Body → Bytes
  | .directory => []
  | .file content _ => Deflate.compress content

/-- The sizes and the check of an entry, as both of its records hold them. -/
structure Measures where
  crc : Nat
  packedSize : Nat
  size : Nat
  deriving DecidableEq, Repr

namespace Measures

/-- What a record says before its content is known. -/
def unknown : Measures := ⟨0, 0, 0⟩

/-- The measures of a body that is packed as given. -/
def ofBody (b : Body) (packed : Bytes) : Measures :=
  ⟨(Digest.crc32 b.content).toNat, packed.length, b.content.length⟩

end Measures

/-- The flag that says that a name is not plain. -/
def nameFlag (name : String) : Nat := if name.toList.all (·.toNat < 128) then 0 else 0x800

/-- The version of the format that is needed to read an entry. -/
def neededVersion : Nat := 20

/-- The version and the kind of system that made an entry. -/
def madeBy : Nat := 0x314

/-- The first day that the format can express. -/
def firstDate : Nat := 0x21

/-- The greatest number of entries that the end record itself can hold. -/
def maxCount : Nat := 0xffff

/-- The greatest size or position that a record itself can hold. -/
def maxSize : Nat := 0xffffffff

/-- The longer field for the position of an entry, where its record cannot hold it. -/
def longOffset (offset : Nat) : Bytes :=
  if offset < maxSize then [] else le16 1 ++ le16 8 ++ le64 offset

/-- The fields that local and central records of an entry at `offset` have in common: from the
version to the lengths of the name and of the longer field. -/
def commonFields (e : Entry) (m : Measures) (offset : Nat) : List Bytes :=
  [le16 neededVersion, le16 (nameFlag e.name), le16 e.body.method, le16 0, le16 firstDate,
    le32 m.crc, le32 m.packedSize, le32 m.size, le16 e.name.utf8ByteSize,
    le16 (longOffset offset).length]

/-- The fields of a local record. -/
def localFields (e : Entry) (m : Measures) (offset : Nat) : List Bytes :=
  le32 0x04034b50 :: commonFields e m offset

/-- The head of the local record of an entry at `offset`. -/
def localHead (e : Entry) (m : Measures) (offset : Nat) : Bytes :=
  (localFields e m offset).flatten ++ (Bytes.ofString e.name ++ longOffset offset)

/-- The fields of a central record. -/
def centralFields (e : Entry) (m : Measures) (offset : Nat) : List Bytes :=
  le32 0x02014b50 :: le16 madeBy :: commonFields e m offset ++
    [le16 0, le16 0, le16 0, le32 (e.body.mode * 65536), le32 (min offset maxSize)]

/-- The central record of an entry whose local record has some measures and is at `offset`. -/
def centralRecord (e : Entry) (m : Measures) (offset : Nat) : Bytes :=
  (centralFields e m offset).flatten ++ (Bytes.ofString e.name ++ longOffset offset)

/-- The records in front of the end record that hold what is too great for it, and where the first
of the two is. -/
def longEndRecords (entries directorySize directoryOffset : Nat) : Bytes :=
  List.flatten [le32 0x06064b50, le64 44, le16 neededVersion, le16 neededVersion, le32 0,
    le32 0, le64 entries, le64 entries, le64 directorySize, le64 directoryOffset,
    le32 0x07064b50, le32 0, le64 (directoryOffset + directorySize), le32 1]

/-- The fields of the end record. -/
def endFields (entries directorySize directoryOffset : Nat) : List Bytes :=
  [le32 0x06054b50, le16 0, le16 0, le16 (min entries maxCount), le16 (min entries maxCount),
    le32 (min directorySize maxSize), le32 (min directoryOffset maxSize), le16 0]

/-- The end record of an archive. -/
def endRecord (entries directorySize directoryOffset : Nat) : Bytes :=
  (endFields entries directorySize directoryOffset).flatten

/-- What ends an archive. -/
def ending (entries directorySize directoryOffset : Nat) : Bytes :=
  if entries ≤ maxCount ∧ directorySize ≤ maxSize ∧ directoryOffset ≤ maxSize then
    endRecord entries directorySize directoryOffset
  else longEndRecords entries directorySize directoryOffset ++
    endRecord entries directorySize directoryOffset

/-- An archive that is being written: the local records so far, the central records for them, and
the names of their entries. -/
structure Draft where
  records : Bytes
  directory : Bytes
  names : List String
  deriving DecidableEq, Repr

namespace Draft

/-- Nothing is written yet. -/
def empty : Draft := ⟨[], [], []⟩

/-- The local record of the next entry with its packed content. -/
def localRecord (d : Draft) (e : Entry) (packed : Bytes) : Bytes :=
  localHead e (.ofBody e.body packed) d.records.length ++ packed

/-- Add an entry. -/
def add (d : Draft) (e : Entry) : Draft :=
  let packed := e.body.packed
  { records := d.records ++ d.localRecord e packed
    directory := d.directory ++ centralRecord e (.ofBody e.body packed) d.records.length
    names := d.names ++ [e.name] }

/-- What stands in the file when the head of a local record was just written. -/
def opened (d : Draft) (e : Entry) : Bytes :=
  d.records ++ localHead e .unknown d.records.length

/-- What stands in the file when an entry was written whose packed size has no field: the archive is
given up there and not closed. -/
def givenUp (d : Draft) (e : Entry) : Bytes :=
  d.records ++
    localHead e ⟨(Digest.crc32 e.body.content).toNat, 0, 0⟩ d.records.length ++ e.body.packed

/-- The closed archive. -/
def close (d : Draft) : Bytes :=
  d.records ++ d.directory ++ ending d.names.length d.directory.length d.records.length

end Draft

/-- The archive of some entries. -/
def encode (entries : List Entry) : Bytes := (entries.foldl Draft.add .empty).close

end Zipship.Zip
