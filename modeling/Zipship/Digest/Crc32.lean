import Zipship.Text.Bytes

/-!
# Cyclic redundancy check

The 32-bit check of zip archives: the remainder by the reflected polynomial `0xEDB88320`, with
inverted bits before and after.
-/

namespace Zipship.Digest

/-- One bit of division by the polynomial. -/
def crcBit (c : UInt32) : UInt32 :=
  if c &&& 1 = 1 then (c >>> 1) ^^^ 0xEDB88320 else c >>> 1

/-- Eight bits of division. -/
def crcByte (c : UInt32) (b : UInt8) : UInt32 :=
  crcBit (crcBit (crcBit (crcBit (crcBit (crcBit (crcBit (crcBit (c ^^^ b.toUInt32))))))))

/-- The check of a content. -/
def crc32 (content : Bytes) : UInt32 :=
  content.foldl crcByte 0xFFFFFFFF ^^^ 0xFFFFFFFF

end Zipship.Digest
