import Zipship.Digest.Hex

/-!
# SHA-256

`sha256` is the digest of a whole message: it is padded to blocks of 64 bytes, and each block is
mixed into eight words. `Hasher` computes the same digest from a message that arrives in parts: it
keeps the words mixed so far, the bytes that do not fill a block yet, and how many bytes there were.
-/

namespace Zipship.Digest

/-- The eight words of the digest. -/
structure Words where
  a : UInt32
  b : UInt32
  c : UInt32
  d : UInt32
  e : UInt32
  f : UInt32
  g : UInt32
  h : UInt32
  deriving DecidableEq, Repr

namespace Words

/-- The words before the first block. -/
def initial : Words :=
  ⟨0x6a09e667, 0xbb67ae85, 0x3c6ef372, 0xa54ff53a, 0x510e527f, 0x9b05688c, 0x1f83d9ab, 0x5be0cd19⟩

/-- The round constants. -/
def constants : List UInt32 :=
  [0x428a2f98, 0x71374491, 0xb5c0fbcf, 0xe9b5dba5, 0x3956c25b, 0x59f111f1, 0x923f82a4, 0xab1c5ed5,
   0xd807aa98, 0x12835b01, 0x243185be, 0x550c7dc3, 0x72be5d74, 0x80deb1fe, 0x9bdc06a7, 0xc19bf174,
   0xe49b69c1, 0xefbe4786, 0x0fc19dc6, 0x240ca1cc, 0x2de92c6f, 0x4a7484aa, 0x5cb0a9dc, 0x76f988da,
   0x983e5152, 0xa831c66d, 0xb00327c8, 0xbf597fc7, 0xc6e00bf3, 0xd5a79147, 0x06ca6351, 0x14292967,
   0x27b70a85, 0x2e1b2138, 0x4d2c6dfc, 0x53380d13, 0x650a7354, 0x766a0abb, 0x81c2c92e, 0x92722c85,
   0xa2bfe8a1, 0xa81a664b, 0xc24b8b70, 0xc76c51a3, 0xd192e819, 0xd6990624, 0xf40e3585, 0x106aa070,
   0x19a4c116, 0x1e376c08, 0x2748774c, 0x34b0bcb5, 0x391c0cb3, 0x4ed8aa4a, 0x5b9cca4f, 0x682e6ff3,
   0x748f82ee, 0x78a5636f, 0x84c87814, 0x8cc70208, 0x90befffa, 0xa4506ceb, 0xbef9a3f7, 0xc67178f2]

/-- Rotate to the right. -/
def rotr (x : UInt32) (n : UInt32) : UInt32 := (x >>> n) ||| (x <<< (32 - n))

/-- One round with the round's constant and message word. -/
def round (s : Words) (k w : UInt32) : Words :=
  let s1 := rotr s.e 6 ^^^ rotr s.e 11 ^^^ rotr s.e 25
  let ch := (s.e &&& s.f) ^^^ ((~~~ s.e) &&& s.g)
  let t1 := s.h + s1 + ch + k + w
  let s0 := rotr s.a 2 ^^^ rotr s.a 13 ^^^ rotr s.a 22
  let maj := (s.a &&& s.b) ^^^ (s.a &&& s.c) ^^^ (s.b &&& s.c)
  ⟨t1 + (s0 + maj), s.a, s.b, s.c, s.d + t1, s.e, s.f, s.g⟩

/-- The message word that follows sixteen others. -/
def nextWord (window : List UInt32) : UInt32 :=
  match window with
  | w0 :: w1 :: _ :: _ :: _ :: _ :: _ :: _ :: _ :: w9 :: _ :: _ :: _ :: _ :: w14 :: _ =>
    let s0 := rotr w1 7 ^^^ rotr w1 18 ^^^ (w1 >>> 3)
    let s1 := rotr w14 17 ^^^ rotr w14 19 ^^^ (w14 >>> 10)
    w0 + s0 + w9 + s1
  | _ => 0

/-- All rounds: `window` holds the next sixteen message words. -/
def rounds : List UInt32 → List UInt32 → Words → Words
  | [], _, s => s
  | _ :: _, [], s => s
  | k :: ks, w :: window, s => rounds ks (window ++ [nextWord (w :: window)]) (s.round k w)

/-- Four bytes as a word, high byte first. -/
def ofBytes : Bytes → List UInt32
  | x0 :: x1 :: x2 :: x3 :: rest =>
    ((x0.toUInt32 <<< 24) ||| (x1.toUInt32 <<< 16) ||| (x2.toUInt32 <<< 8) ||| x3.toUInt32) ::
      ofBytes rest
  | _ => []

/-- Mix one block of 64 bytes in. -/
def mix (s : Words) (block : Bytes) : Words :=
  let t := rounds constants (ofBytes block) s
  ⟨s.a + t.a, s.b + t.b, s.c + t.c, s.d + t.d, s.e + t.e, s.f + t.f, s.g + t.g, s.h + t.h⟩

/-- A word as four bytes, high byte first. -/
def wordBytes (w : UInt32) : Bytes :=
  [(w >>> 24).toUInt8, (w >>> 16).toUInt8, (w >>> 8).toUInt8, w.toUInt8]

/-- The digest in bytes. -/
def toBytes (s : Words) : Bytes :=
  [s.a, s.b, s.c, s.d, s.e, s.f, s.g, s.h].flatMap wordBytes

end Words

/-- How many bytes a block has. -/
def blockSize : Nat := 64

/-- Mix in as many whole blocks as there are; `fuel` bounds their number. The rest is returned. -/
def mixBlocksAux : Nat → Words → Bytes → Words × Bytes
  | 0, s, b => (s, b)
  | fuel + 1, s, b =>
    let block := b.take blockSize
    if block.length < blockSize then (s, b)
    else mixBlocksAux fuel (s.mix block) (b.drop blockSize)

/-- Mix in as many whole blocks as there are, and return the bytes that are left. -/
def mixBlocks (s : Words) (b : Bytes) : Words × Bytes :=
  mixBlocksAux (b.length / blockSize) s b

/-- A number as eight bytes, high byte first; higher bits are dropped. -/
def be64 (n : Nat) : Bytes :=
  (List.range 8).map fun i => UInt8.ofNat (n / Nat.pow 256 (7 - i))

/-- What follows a message of `length` bytes: a set bit, zeros up to a whole number of blocks, and
the length in bits. -/
def padding (length : Nat) : Bytes :=
  0x80 :: List.replicate ((119 - length % blockSize) % blockSize) 0 ++ be64 (8 * length)

/-- The SHA-256 digest of a message. -/
def sha256 (message : Bytes) : Bytes :=
  (mixBlocks .initial (message ++ padding message.length)).1.toBytes

/-- A digest being computed from a message that arrives in parts. -/
structure Hasher where
  words : Words
  /-- The bytes behind the last whole block. -/
  pending : Bytes
  /-- How many bytes there were in all. -/
  length : Nat

namespace Hasher

/-- Before the first part. -/
def initial : Hasher := ⟨.initial, [], 0⟩

/-- Take in the next part of the message. -/
def update (h : Hasher) (part : Bytes) : Hasher :=
  let (words, pending) := mixBlocks h.words (h.pending ++ part)
  ⟨words, pending, h.length + part.length⟩

/-- The digest of all parts. -/
def digest (h : Hasher) : Bytes :=
  (mixBlocks h.words (h.pending ++ padding h.length)).1.toBytes

end Hasher

end Zipship.Digest
