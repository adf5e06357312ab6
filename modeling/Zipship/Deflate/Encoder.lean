import Zipship.Deflate.Header
import Zipship.Deflate.Matcher

/-!
# Compressing

Tokens are written in blocks. Each block is written in the shortest of three ways: with codes made
for it, which are written in front of it; with codes that are known beforehand; or as plain bytes.
How repetitions are found and how lengths are chosen decides only how short the data gets: tokens
are used if they stand for the data, and codes if they have what the block needs.
-/

namespace Zipship.Deflate

/-- How many tokens a block has at most. -/
def blockTokens : Nat := 16383

/-- The tokens of some data: those that the matcher finds, if they stand for it. -/
def tokensOf (data : Array UInt8) : Array Token :=
  let found := Matcher.tokens data
  if expand? found.toList = some data then found else data.map .literal

/-- How a block starts: whether it is the last one, and the way it is written. -/
def putBlockStart (w : BitWriter) (last : Bool) (kind : Nat) : BitWriter :=
  (w.put last.toNat 1).put kind 2

/-- Write a block of plain bytes. -/
def putPlain (w : BitWriter) (last : Bool) (plain : Array UInt8) : BitWriter :=
  let size := Bytes.le16 plain.size ++ Bytes.le16 (65535 - plain.size)
  (putBlockStart w last 0).putBytes (size.toArray ++ plain)

/-- How many bytes a number of bits takes behind the start of a block. -/
def bytesFor (bits : Nat) : Nat := (bits + 3 + 7) / 8

/-- Write a block of tokens, which stand for `plain`, in the shortest way. -/
def putBlock (w : BitWriter) (last : Bool) (tokens : Array Token) (plain : Array UInt8) :
    BitWriter :=
  let f := Frequencies.ofTokens tokens
  let known := if tokens.isEmpty then 0 else bytesFor (Codebook.fixed.cost f)
  let size (h : Header) : Nat := bytesFor (h.bits + h.book.cost f)
  let own := (Header.ofFrequencies? f).filter fun h => size h < known ∧ h.book.Covers f
  if plain.size ≤ 65535 ∧ plain.size + 4 ≤ own.elim known size then putPlain w last plain
  else
    match own with
    | none => Codebook.fixed.putTokens (putBlockStart w last 1) tokens
    | some h => h.book.putTokens (h.put (putBlockStart w last 2)) tokens

/-- Write blocks of tokens, the last one with what is left; `fuel` bounds their number. -/
def putBlocks (data : Array UInt8) (tokens : Array Token) : Nat → Nat → Nat → BitWriter → BitWriter
  | 0, _, _, w => w
  | fuel + 1, first, pos, w =>
    let block := tokens.extract first (first + blockTokens)
    let size := block.foldl (fun n t => n + t.size) 0
    let plain := data.extract pos (pos + size)
    if block.size < blockTokens then putBlock w true block plain
    else
      putBlocks data tokens fuel (first + blockTokens) (pos + size) (putBlock w false block plain)

/-- A block of plain bytes that starts with a whole byte. -/
def plainBlock (last : Bool) (plain : Bytes) : Bytes :=
  UInt8.ofNat last.toNat ::
    (Bytes.le16 plain.length ++ Bytes.le16 (65535 - plain.length) ++ plain)

/-- Data as plain bytes, in full blocks and one behind them with what is left. -/
def plainBlocks : Nat → Bytes → Bytes
  | 0, data => plainBlock true data
  | full + 1, data => plainBlock false (data.take 65535) ++ plainBlocks full (data.drop 65535)

/-- The compressed form of some data. Nothing gets longer by more than five bytes for every block
that its bytes alone would make. -/
def compress (data : Bytes) : Bytes :=
  let bytes := data.toArray
  let tokens := tokensOf bytes
  let packed := (putBlocks bytes tokens (tokens.size / blockTokens + 1) 0 0 .empty).toBytes
  if packed.length ≤ data.length + 5 * (data.length / blockTokens + 1) then packed
  else plainBlocks (data.length / 65535) data

end Zipship.Deflate
