import Zipship.Deflate.Codebook
import Zipship.Deflate.Huffman

/-!
# Codes in front of a block

The lengths of the codes that a block is written with stand in front of it, as steps: a length, or
one of three ways to repeat one. The steps have a prefix code too, whose lengths come first.
-/

namespace Zipship.Deflate

/-! ## Steps -/

/-- A step in a list of code lengths: a length, or from sixteen on a repetition, and how much more
often it repeats than it must. -/
structure LengthStep where
  symbol : Nat
  extra : Nat
  deriving Repr, DecidableEq

/-- How many symbols the steps have. -/
def stepCount : Nat := 19

/-- How often the repetitions of a symbol may repeat. -/
def repeatRange (symbol : Nat) : Range :=
  if symbol = 16 then ⟨3, 2⟩ else if symbol = 17 then ⟨3, 3⟩ else ⟨11, 7⟩

/-- How many extra bits the step of a symbol has. -/
def stepExtraBits (symbol : Nat) : Nat := if symbol < 16 then 0 else (repeatRange symbol).extraBits

/-- Append the lengths that a step stands for: the first way to repeat takes the length in front,
the others take zero. -/
def expandStep? (lengths : Array Nat) (s : LengthStep) : Option (Array Nat) :=
  if s.symbol < 16 then some (lengths.push s.symbol)
  else
    (if s.symbol = 16 then lengths.back? else some 0).map fun length =>
      lengths ++ Array.replicate ((repeatRange s.symbol).first + s.extra) length

/-- How many equal lengths in a row are taken together at most, and from how many on they are
written as a repetition. A length that is not zero is repeated from the second one on, unless it is
the one in front of the row already. -/
def rowBounds (previous : Option Nat) (length : Nat) : Nat × Nat :=
  if length = 0 then (138, 3) else if previous = some length then (6, 3) else (7, 4)

/-- How `count` equal lengths in a row are written. -/
def repeatSteps (previous : Option Nat) (length count : Nat) : List LengthStep :=
  if count < (rowBounds previous length).2 then List.replicate count ⟨length, 0⟩
  else if length ≠ 0 then
    if previous = some length then [⟨16, count - 3⟩] else [⟨length, 0⟩, ⟨16, count - 4⟩]
  else if count ≤ 10 then [⟨17, count - 3⟩]
  else [⟨18, count - 11⟩]

/-- The steps of a list of lengths. `count` of the first length were met before, and the length in
front of those is `previous`. -/
def lengthSteps (count : Nat) (previous : Option Nat) : List Nat → List LengthStep
  | [] => []
  | length :: rest =>
    if count + 1 < (rowBounds previous length).1 ∧ rest.head? = some length then
      lengthSteps (count + 1) previous rest
    else repeatSteps previous length (count + 1) ++ lengthSteps 0 (some length) rest

/-! ## Headers -/

/-- The steps of the lengths of both codes. No repetition goes over from one into the other. -/
def Codebook.steps (book : Codebook) : List LengthStep :=
  lengthSteps 0 none book.main.lengths.toList ++ lengthSteps 0 none book.distance.lengths.toList

/-- The order in which the lengths of the steps' own codes are written. -/
def stepOrder : List Nat := [16, 17, 18, 0, 8, 7, 9, 6, 10, 5, 11, 4, 12, 3, 13, 2, 14, 1, 15]

/-- The list without the zeros at its end. -/
def withoutTrailingZeros (l : List Nat) : List Nat := (l.reverse.dropWhile (· = 0)).reverse

/-- The list with zeros at its end up to a length. -/
def padded (l : List Nat) (length : Nat) : List Nat := l ++ List.replicate (length - l.length) 0

/-- Codes and a code for their steps that a header can say: there are as many lengths as the fields
for their numbers hold, those of the steps take three bits, and all steps that occur have codes. -/
def IsHeader (book : Codebook) (stepCode : Coding) : Prop :=
  (endOfBlock < book.main.lengths.size ∧ book.main.lengths.size ≤ endOfBlock + 32) ∧
    (0 < book.distance.lengths.size ∧ book.distance.lengths.size ≤ 32) ∧
    stepCode.lengths.size = stepCount ∧ (∀ l ∈ stepCode.lengths.toList, l ≤ 7) ∧
    ∀ s ∈ book.steps, 0 < stepCode.length s.symbol

instance (book : Codebook) (stepCode : Coding) : Decidable (IsHeader book stepCode) :=
  inferInstanceAs (Decidable (_ ∧ _))

/-- The codes made for a block, and the code in which they are written in front of it. -/
structure Header where
  book : Codebook
  stepCode : Coding
  isHeader : IsHeader book stepCode

namespace Header

/-- The header for symbols of some frequencies, if the lengths made for them are those of codes. -/
def ofFrequencies? (f : Frequencies) : Option Header := do
  let lengths (frequencies : Array Nat) : Array Nat :=
    (withoutTrailingZeros (Huffman.codeLengths frequencies 15).toList).toArray
  let main ← Coding.ofLengths? (lengths f.main)
  let distance ← Coding.ofLengths? (lengths f.distance)
  let book : Codebook := ⟨main, distance⟩
  let frequencies := book.steps.foldl (fun (c : Array Nat) s => c.modify s.symbol (· + 1))
    (Array.replicate stepCount 0)
  let stepCode ← Coding.ofLengths? (Huffman.codeLengths frequencies 7)
  if h : IsHeader book stepCode then some ⟨book, stepCode, h⟩ else none

/-- The lengths of the steps' codes in their order, as many as are written. -/
def shownLengths (h : Header) : List Nat :=
  padded (withoutTrailingZeros (stepOrder.map h.stepCode.length)) 4

/-- How many bits the header takes. -/
def bits (h : Header) : Nat :=
  14 + 3 * h.shownLengths.length +
    h.book.steps.foldl (fun n s => n + (h.stepCode.length s.symbol + stepExtraBits s.symbol)) 0

/-- Write a step. -/
def putStep (h : Header) (w : BitWriter) (s : LengthStep) : BitWriter :=
  (h.stepCode.put w s.symbol).put s.extra (stepExtraBits s.symbol)

/-- Write the header. -/
def put (h : Header) (w : BitWriter) : BitWriter :=
  let w := w.put (h.book.main.lengths.size - (endOfBlock + 1)) 5
  let w := w.put (h.book.distance.lengths.size - 1) 5
  let w := w.put (h.shownLengths.length - 4) 4
  h.book.steps.foldl h.putStep (h.shownLengths.foldl (fun w l => w.put l 3) w)

end Header

end Zipship.Deflate
