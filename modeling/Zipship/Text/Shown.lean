import Zipship.Text.Bytes

/-!
# Bytes that are shown as text

Names and paths are bytes, which need not be text. `shown` is what somebody sees of them: characters
where the bytes are UTF-8, and one replacement character for whatever is not. What is replaced at
once is the longest beginning of a character that does not go on as one, or else a single byte.
-/

namespace Zipship.Bytes

/-- The character that stands for bytes that are none. -/
def replacement : Char := '\uFFFD'

/-- The character that the bytes begin with. -/
def char? (b : Bytes) : Option Char := (b.take 4).toByteArray.utf8DecodeChar? 0

/-- A byte of a character other than its first. -/
def isContinuation (b : UInt8) : Bool := 0x80 ≤ b && b ≤ 0xBF

/-- The second byte may follow the first one in a character. -/
def mayFollow (first second : UInt8) : Bool :=
  if first < 0xC2 || 0xF4 < first then false
  else if first = 0xE0 then 0xA0 ≤ second && second ≤ 0xBF
  else if first = 0xED then 0x80 ≤ second && second ≤ 0x9F
  else if first = 0xF0 then 0x90 ≤ second && second ≤ 0xBF
  else if first = 0xF4 then 0x80 ≤ second && second ≤ 0x8F
  else isContinuation second

/-- How many bytes in front belong together although they are no character. -/
def strayLength : Bytes → Nat
  | first :: second :: rest =>
    if !mayFollow first second then 1
    else if 0xF0 ≤ first && rest.head?.any isContinuation then 3
    else 2
  | _ => 1

/-- The characters that are shown of some bytes; `fuel` bounds their number. -/
def shownChars : Nat → Bytes → List Char
  | 0, _ | _, [] => []
  | fuel + 1, b =>
    match char? b with
    | some c => c :: shownChars fuel (b.drop c.utf8Size)
    | none => replacement :: shownChars fuel (b.drop (strayLength b))

/-- The text that is shown of some bytes. -/
def shown (b : Bytes) : String := String.ofList (shownChars b.length b)

end Zipship.Bytes
