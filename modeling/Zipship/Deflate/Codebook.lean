import Zipship.Deflate.Code
import Zipship.Deflate.Token

/-!
# Writing tokens

Bytes, lengths and the end of a block share one prefix code, distances have another. A length or a
distance is written as the code of its range, with the bits that choose it from the range behind
them.
-/

namespace Zipship.Deflate

/-- The symbols of a token, and the extra bits behind each of them. -/
structure Symbols where
  /-- The symbol of a byte or of a length. -/
  main : Nat
  mainExtra : Nat
  mainExtraBits : Nat
  distance : Option (Nat × Nat × Nat)

/-- The symbols of a token. -/
def Token.symbols : Token → Symbols
  | .literal b => ⟨b.toNat, 0, 0, none⟩
  | .copy length distance =>
    let lc := if length = maxCopy then lengthRanges.size - 1
      else codeBelow lengthRanges length (lengthRanges.size - 2)
    let dc := codeOf distanceRanges distance
    let l := lengthRanges.getD lc ⟨0, 0⟩
    let d := distanceRanges.getD dc ⟨0, 0⟩
    ⟨firstLengthSymbol + lc, length - l.first, l.extraBits,
      some (dc, distance - d.first, d.extraBits)⟩

/-- How often each symbol occurs in a block. -/
structure Frequencies where
  main : Array Nat
  distance : Array Nat
  /-- How many extra bits there are. -/
  extraBits : Nat

namespace Frequencies

/-- Count a token. -/
def count (f : Frequencies) (t : Token) : Frequencies :=
  let s := t.symbols
  let ⟨main, distance, extra⟩ := f
  let main := main.modify s.main (· + 1)
  match s.distance with
  | none => ⟨main, distance, extra + s.mainExtraBits⟩
  | some (code, _, bits) => ⟨main, distance.modify code (· + 1), extra + s.mainExtraBits + bits⟩

/-- The frequencies of some tokens and of the end of their block. -/
def ofTokens (tokens : Array Token) : Frequencies :=
  tokens.foldl count
    ⟨(Array.replicate symbolCount 0).modify endOfBlock (· + 1), Array.replicate distanceCount 0, 0⟩

end Frequencies

/-- The codes for the symbols of a block. -/
structure Codebook where
  /-- The code of bytes, lengths and the end of the block. -/
  main : Coding
  distance : Coding

namespace Codebook

/-- The lengths that are known beforehand. -/
def fixedMainLengths : Array Nat :=
  (List.replicate 144 8 ++ (List.replicate 112 9 ++
    (List.replicate 24 7 ++ List.replicate 8 8))).toArray

/-- The distance lengths that are known beforehand. -/
def fixedDistanceLengths : Array Nat := (List.replicate 30 5).toArray

theorem isCode_fixedMainLengths : IsCode fixedMainLengths := by decide +kernel

theorem isCode_fixedDistanceLengths : IsCode fixedDistanceLengths := by decide +kernel

/-- The book that is known beforehand. -/
def fixed : Codebook :=
  ⟨.ofLengths fixedMainLengths isCode_fixedMainLengths,
    .ofLengths fixedDistanceLengths isCode_fixedDistanceLengths⟩

/-- Write a token. -/
def putToken (book : Codebook) (w : BitWriter) (t : Token) : BitWriter :=
  let s := t.symbols
  let w := (book.main.put w s.main).put s.mainExtra s.mainExtraBits
  match s.distance with
  | none => w
  | some (code, extra, bits) => (book.distance.put w code).put extra bits

/-- Write tokens and the end of the block. -/
def putTokens (book : Codebook) (w : BitWriter) (tokens : Array Token) : BitWriter :=
  book.main.put (tokens.foldl book.putToken w) endOfBlock

/-- How many bits tokens of some frequencies take. -/
def cost (book : Codebook) (f : Frequencies) : Nat :=
  book.main.cost f.main + book.distance.cost f.distance + f.extraBits

/-- All symbols of some frequencies have codes. -/
def Covers (book : Codebook) (f : Frequencies) : Prop :=
  book.main.Covers f.main ∧ book.distance.Covers f.distance

instance (book : Codebook) (f : Frequencies) : Decidable (book.Covers f) :=
  inferInstanceAs (Decidable (_ ∧ _))

end Codebook

end Zipship.Deflate
