import Zipship.Text.Bytes

/-!
# Bits in bytes

Bits are packed into bytes from the lowest bit up. Numbers are written low bit first, prefix codes
high bit first.
-/

namespace Zipship.Deflate

/-- Bits being packed: the bytes that are full, and the bits of the next one. -/
structure BitWriter where
  bytes : Array UInt8
  pending : Nat
  /-- How many bits are pending, fewer than eight. -/
  count : Nat

namespace BitWriter

/-- Nothing is written yet. -/
def empty : BitWriter := ⟨#[], 0, 0⟩

/-- Move full bytes out of some pending bits; `fuel` bounds how many. -/
def flushFull : Nat → BitWriter → BitWriter
  | 0, w => w
  | fuel + 1, w =>
    if w.count < 8 then w
    else
      let ⟨bytes, pending, count⟩ := w
      flushFull fuel ⟨bytes.push (UInt8.ofNat pending), pending / 256, count - 8⟩

/-- Write the low `bits` bits of a number. -/
def put (w : BitWriter) (n bits : Nat) : BitWriter :=
  let ⟨bytes, pending, count⟩ := w
  flushFull (bits / 8 + 1) ⟨bytes, pending + n % Nat.pow 2 bits * Nat.pow 2 count, count + bits⟩

/-- A number with its low `bits` bits in reverse order, above the bits of `acc`. -/
def reverseBits : Nat → Nat → Nat → Nat
  | 0, _, acc => acc
  | bits + 1, n, acc => reverseBits bits (n / 2) (2 * acc + n % 2)

/-- Write a prefix code. -/
def putCode (w : BitWriter) (code bits : Nat) : BitWriter := w.put (reverseBits bits code 0) bits

/-- Fill the last byte with zeros. -/
def align (w : BitWriter) : BitWriter :=
  if w.count = 0 then w else ⟨w.bytes.push (UInt8.ofNat w.pending), 0, 0⟩

/-- Write whole bytes, from the next byte on. -/
def putBytes (w : BitWriter) (b : Array UInt8) : BitWriter :=
  let ⟨bytes, pending, count⟩ := w.align
  ⟨bytes ++ b, pending, count⟩

/-- All that was written. -/
def toBytes (w : BitWriter) : Bytes := w.align.bytes.toList

end BitWriter

/-- Bits being unpacked: the bytes, and how many bits of them were read. -/
structure BitReader where
  bytes : Array UInt8
  pos : Nat

namespace BitReader

/-- The next bit. -/
def bit? (r : BitReader) : Option (Nat × BitReader) :=
  if h : r.pos / 8 < r.bytes.size then
    some ((r.bytes[r.pos / 8].toNat >>> (r.pos % 8)) % 2, { r with pos := r.pos + 1 })
  else none

/-- The number in the next `bits` bits. -/
def number? (r : BitReader) : Nat → Option (Nat × BitReader)
  | 0 => some (0, r)
  | bits + 1 => do
    let (low, r) ← r.bit?
    let (high, r) ← r.number? bits
    return (low + 2 * high, r)

/-- The numbers in the next `count` pieces of `bits` bits. -/
def numbers? (r : BitReader) (bits : Nat) : Nat → Option (List Nat × BitReader)
  | 0 => some ([], r)
  | count + 1 => do
    let (n, r) ← r.number? bits
    let (ns, r) ← r.numbers? bits count
    return (n :: ns, r)

/-- Skip to the next whole byte. -/
def align (r : BitReader) : BitReader := { r with pos := (r.pos + 7) / 8 * 8 }

/-- The next `count` whole bytes. -/
def bytes? (r : BitReader) (count : Nat) : Option (Array UInt8 × BitReader) :=
  let first := r.pos / 8
  let b := r.bytes.extract first (first + count)
  if b.size = count then some (b, { r with pos := 8 * (first + count) }) else none

end BitReader

end Zipship.Deflate
