import Zipship.Deflate.Header

/-!
# Decompressing

`decompress?` reads blocks until the last one and gives the data they stand for, or nothing if they
are damaged. It accepts every way of writing a block, not only those that `compress` chooses.
-/

namespace Zipship.Deflate

/-- Read what is behind the symbol of a token. -/
def readToken (distance : Decoding) (s : Nat) (r : BitReader) : Option (Token × BitReader) :=
  if s < endOfBlock then some (.literal (UInt8.ofNat s), r)
  else do
    let l ← lengthRanges[s - firstLengthSymbol]?
    let (length, r) ← r.number? l.extraBits
    let (code, r) ← distance.symbol? r
    let d ← distanceRanges[code]?
    let (back, r) ← r.number? d.extraBits
    some (.copy (l.first + length) (d.first + back), r)

/-- Read tokens until the end of the block; `fuel` bounds their number. -/
def readTokens (main distance : Decoding) :
    Nat → BitReader → Array UInt8 → Option (Array UInt8 × BitReader)
  | 0, _, _ => none
  | fuel + 1, r, out => do
    let (s, r) ← main.symbol? r
    if s = endOfBlock then some (out, r)
    else do
      let (t, r) ← readToken distance s r
      let out ← appendToken? out t
      readTokens main distance fuel r out

/-- Read code lengths until there are `total` of them; `fuel` bounds the steps. -/
def readLengths (steps : Decoding) (total : Nat) :
    Nat → BitReader → Array Nat → Option (Array Nat × BitReader)
  | 0, _, _ => none
  | fuel + 1, r, lengths =>
    if total ≤ lengths.size then some (lengths, r)
    else do
      let (symbol, r) ← steps.symbol? r
      let (extra, r) ← r.number? (stepExtraBits symbol)
      let lengths ← expandStep? lengths ⟨symbol, extra⟩
      readLengths steps total fuel r lengths

/-- Read the codes in front of a block. -/
def readHeader (r : BitReader) : Option ((Decoding × Decoding) × BitReader) := do
  let (main, r) ← r.number? 5
  let (distance, r) ← r.number? 5
  let (shown, r) ← r.number? 4
  let (shownLengths, r) ← r.numbers? 3 (shown + 4)
  let stepLengths := (List.range stepCount).map fun s => shownLengths.getD (stepOrder.idxOf s) 0
  let main := main + (endOfBlock + 1)
  let total := main + (distance + 1)
  let (lengths, r) ← readLengths (.ofLengths stepLengths.toArray) total (total + 1) r #[]
  if lengths.size = total then
    some ((.ofLengths (lengths.extract 0 main), .ofLengths (lengths.extract main total)), r)
  else none

/-- Read plain bytes, whose number stands twice in front of them. -/
def readPlain (r : BitReader) (out : Array UInt8) : Option (Array UInt8 × BitReader) := do
  let (size, r) ← r.align.bytes? 4
  let n := Bytes.readLe (size.toList.take 2)
  if Bytes.readLe (size.toList.drop 2) = 65535 - n then do
    let (plain, r) ← r.bytes? n
    some (out ++ plain, r)
  else none

/-- Read what is behind the start of a block of some kind. -/
def readBody (kind : Nat) (r : BitReader) (out : Array UInt8) :
    Option (Array UInt8 × BitReader) :=
  let fuel := 8 * r.bytes.size + 1
  if kind = 0 then readPlain r out
  else if kind = 1 then
    readTokens (.ofLengths Codebook.fixedMainLengths) (.ofLengths Codebook.fixedDistanceLengths)
      fuel r out
  else if kind = 2 then do
    let ((main, distance), r) ← readHeader r
    readTokens main distance fuel r out
  else none

/-- Read a block, and say whether it is the last one. -/
def readBlock (r : BitReader) (out : Array UInt8) : Option ((Bool × Array UInt8) × BitReader) := do
  let (last, r) ← r.number? 1
  let (kind, r) ← r.number? 2
  let (out, r) ← readBody kind r out
  some ((last = 1, out), r)

/-- Read blocks until the last one; `fuel` bounds their number. -/
def readBlocks : Nat → BitReader → Array UInt8 → Option (Array UInt8)
  | 0, _, _ => none
  | fuel + 1, r, out => do
    let ((last, out), r) ← readBlock r out
    if last then some out else readBlocks fuel r out

/-- The data that a compressed form stands for. -/
def decompress? (packed : Bytes) : Option Bytes :=
  let bytes := packed.toArray
  (readBlocks (8 * bytes.size + 1) ⟨bytes, 0⟩ #[]).map Array.toList

end Zipship.Deflate
