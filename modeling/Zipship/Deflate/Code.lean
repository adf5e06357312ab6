import Zipship.Deflate.Bits

/-!
# Prefix codes

A prefix code is given by the lengths of its codes in bits, zero for symbols that have none. Codes
are numbered in the order of their lengths, and of the symbols within a length: the codes of a
length follow those of the length before, with a bit added.
-/

namespace Zipship.Deflate

/-- How many symbols have each length from one to fifteen, which is the greatest. -/
def lengthCounts (lengths : Array Nat) : List Nat :=
  (List.range 15).map fun l => lengths.toList.count (l + 1)

/-- The first code that is `bits` bits longer than `code`, given how many codes there are from the
length of `code` on. -/
def firstCode (code : Nat) : List Nat → Nat → Nat
  | count :: counts, bits + 1 => firstCode (2 * (code + count)) counts bits
  | _, _ => code

/-- The code of every symbol. -/
def canonicalCodes (lengths : Array Nat) : Array Nat :=
  let counts := lengthCounts lengths
  let code (s : Nat) : Nat :=
    let length := lengths.getD s 0
    firstCode 0 counts (length - 1) + (List.range s).countP fun t => lengths.getD t 0 = length
  ((List.range lengths.size).map code).toArray

/-- Codes of some lengths exist: none is too long, and the codes do not run out. -/
def IsCode (lengths : Array Nat) : Prop :=
  (∀ l ∈ lengths.toList, l ≤ 15) ∧ firstCode 0 (lengthCounts lengths) 15 ≤ 65536

instance (lengths : Array Nat) : Decidable (IsCode lengths) := inferInstanceAs (Decidable (_ ∧ _))

/-- The lengths of a prefix code, and its codes. -/
structure Coding where
  lengths : Array Nat
  codes : Array Nat
  isCode : IsCode lengths
  codes_eq : codes = canonicalCodes lengths

namespace Coding

/-- The prefix code of some lengths. -/
def ofLengths (lengths : Array Nat) (h : IsCode lengths) : Coding :=
  ⟨lengths, canonicalCodes lengths, h, rfl⟩

/-- The prefix code of some lengths, if there is one. -/
def ofLengths? (lengths : Array Nat) : Option Coding :=
  if h : IsCode lengths then some (ofLengths lengths h) else none

/-- How many bits the code of a symbol has. -/
def length (c : Coding) (s : Nat) : Nat := c.lengths.getD s 0

/-- Write the code of a symbol. -/
def put (c : Coding) (w : BitWriter) (s : Nat) : BitWriter :=
  w.putCode (c.codes.getD s 0) (c.length s)

/-- How many bits symbols of some frequencies take. -/
def cost (c : Coding) (frequencies : Array Nat) : Nat :=
  (c.lengths.zip frequencies).foldl (fun n e => n + e.1 * e.2) 0

/-- All that occur have a code. -/
def Covers (c : Coding) (frequencies : Array Nat) : Prop :=
  ∀ s ∈ List.range frequencies.size, 0 < frequencies.getD s 0 → 0 < c.length s

instance (c : Coding) (frequencies : Array Nat) : Decidable (c.Covers frequencies) :=
  inferInstanceAs (Decidable (∀ s ∈ List.range frequencies.size, _))

end Coding

/-- The symbols of a prefix code in the order of their codes, and how many have each length. -/
structure Decoding where
  counts : List Nat
  symbols : Array Nat

/-- The symbols whose codes have some length, in order. -/
def ofLength (lengths : Array Nat) (length : Nat) : List Nat :=
  (List.range lengths.size).filter fun s => lengths.getD s 0 = length

namespace Decoding

/-- The decoding of some lengths. -/
def ofLengths (lengths : Array Nat) : Decoding :=
  ⟨lengthCounts lengths, ((List.range 15).flatMap fun l => ofLength lengths (l + 1)).toArray⟩

/-- Read bits until they are the code of a symbol. The code so far is `code`, the codes of its
length start at `first` and their symbols at `index`. -/
def symbolAux (d : Decoding) (code first index : Nat) :
    List Nat → BitReader → Option (Nat × BitReader)
  | [], _ => none
  | count :: counts, r =>
    match r.bit? with
    | none => none
    | some (b, r) =>
      let code := 2 * code + b
      if code < first + count then some (d.symbols.getD (index + (code - first)) 0, r)
      else symbolAux d code (2 * (first + count)) (index + count) counts r

/-- The next symbol. -/
def symbol? (d : Decoding) (r : BitReader) : Option (Nat × BitReader) :=
  d.symbolAux 0 0 0 d.counts r

end Decoding

end Zipship.Deflate
