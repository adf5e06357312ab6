import Zipship.Text.Bytes

/-!
# Tokens of compressed data

Compressed data is a sequence of single bytes and of copies from what came before. `expand?` gives
the data that a sequence of tokens stands for. Lengths and distances are written as a code, which
stands for a range of numbers, and some bits that choose one of the range.
-/

namespace Zipship.Deflate

/-- A single byte, or a copy of `length` bytes from `distance` bytes back. -/
inductive Token where
  | literal (b : UInt8)
  | copy (length distance : Nat)
  deriving DecidableEq, Repr, Inhabited

namespace Token

/-- How many bytes the token stands for. -/
def size : Token → Nat
  | literal _ => 1
  | copy length _ => length

end Token

/-- Append a copy of what is `distance` bytes back, which may run into the copy itself. -/
def appendCopy (data : Array UInt8) (distance : Nat) : Nat → Array UInt8
  | 0 => data
  | length + 1 => appendCopy (data.push (data.getD (data.size - distance) 0)) distance length

/-- The shortest copy. -/
def minCopy : Nat := 3

/-- The longest copy. -/
def maxCopy : Nat := 258

/-- How far back a copy may reach. -/
def maxReach : Nat := 32768

/-- Append what a token stands for, if a copy is of what is there. -/
def appendToken? (data : Array UInt8) : Token → Option (Array UInt8)
  | .literal b => some (data.push b)
  | .copy length distance =>
    if (minCopy ≤ length ∧ length ≤ maxCopy) ∧
        0 < distance ∧ distance ≤ maxReach ∧ distance ≤ data.size then
      some (appendCopy data distance length)
    else none

/-- The data that tokens stand for, if all copies are of what is there. -/
def expand? (tokens : List Token) : Option (Array UInt8) := tokens.foldlM appendToken? #[]

/-- A range of numbers that share a code: the first of them, and how many bits tell them apart. -/
structure Range where
  first : Nat
  extraBits : Nat
  deriving DecidableEq, Repr, Inhabited

/-- The ranges of lengths. The last one holds the greatest length alone. -/
def lengthRanges : Array Range :=
  #[⟨3, 0⟩, ⟨4, 0⟩, ⟨5, 0⟩, ⟨6, 0⟩, ⟨7, 0⟩, ⟨8, 0⟩, ⟨9, 0⟩, ⟨10, 0⟩, ⟨11, 1⟩, ⟨13, 1⟩, ⟨15, 1⟩,
    ⟨17, 1⟩, ⟨19, 2⟩, ⟨23, 2⟩, ⟨27, 2⟩, ⟨31, 2⟩, ⟨35, 3⟩, ⟨43, 3⟩, ⟨51, 3⟩, ⟨59, 3⟩, ⟨67, 4⟩,
    ⟨83, 4⟩, ⟨99, 4⟩, ⟨115, 4⟩, ⟨131, 5⟩, ⟨163, 5⟩, ⟨195, 5⟩, ⟨227, 5⟩, ⟨258, 0⟩]

/-- The ranges of distances. -/
def distanceRanges : Array Range :=
  #[⟨1, 0⟩, ⟨2, 0⟩, ⟨3, 0⟩, ⟨4, 0⟩, ⟨5, 1⟩, ⟨7, 1⟩, ⟨9, 2⟩, ⟨13, 2⟩, ⟨17, 3⟩, ⟨25, 3⟩, ⟨33, 4⟩,
    ⟨49, 4⟩, ⟨65, 5⟩, ⟨97, 5⟩, ⟨129, 6⟩, ⟨193, 6⟩, ⟨257, 7⟩, ⟨385, 7⟩, ⟨513, 8⟩, ⟨769, 8⟩,
    ⟨1025, 9⟩, ⟨1537, 9⟩, ⟨2049, 10⟩, ⟨3073, 10⟩, ⟨4097, 11⟩, ⟨6145, 11⟩, ⟨8193, 12⟩,
    ⟨12289, 12⟩, ⟨16385, 13⟩, ⟨24577, 13⟩]

/-- The code of the last range that starts at or before a number, at or before code `code`. -/
def codeBelow (ranges : Array Range) (n : Nat) : Nat → Nat
  | 0 => 0
  | code + 1 => if (ranges.getD (code + 1) ⟨0, 0⟩).first ≤ n then code + 1
    else codeBelow ranges n code

/-- The code of the range that a number belongs to. -/
def codeOf (ranges : Array Range) (n : Nat) : Nat := codeBelow ranges n (ranges.size - 1)

/-- The symbol that ends a block. -/
def endOfBlock : Nat := 256

/-- The symbol of the first length code. -/
def firstLengthSymbol : Nat := 257

/-- How many symbols stand for bytes, lengths and the end of a block. -/
def symbolCount : Nat := 286

/-- How many symbols stand for distances. -/
def distanceCount : Nat := 30

end Zipship.Deflate
