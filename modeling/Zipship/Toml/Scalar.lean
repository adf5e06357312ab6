import Zipship.Toml.Text
import Zipship.Toml.Value

/-!
# Words of a document

Numbers, dates and truth values are words: they have no quotes and end before the next blank or
mark. Each kind is told by the shape of the whole word.
-/

namespace Zipship.Toml

/-- The parts of a text between the characters where `p` holds. -/
def splitAtAll (p : Char → Bool) : List Char → List (List Char)
  | [] => [[]]
  | c :: cs =>
    match splitAtAll p cs with
    | [] => [[]]
    | part :: parts => if p c then [] :: part :: parts else (c :: part) :: parts

/-- The digits of a number in which single underscores may stand between digits. -/
def digits? (isDigit : Char → Bool) (cs : List Char) : Option (List Char) :=
  let groups := splitAtAll (· = '_') cs
  if groups.all fun g => g ≠ [] && g.all isDigit then some groups.flatten else none

/-- The number written in decimal digits. -/
def decimalValue (cs : List Char) : Nat :=
  cs.foldl (fun n c => 10 * n + (c.toNat - '0'.toNat)) 0

/-- A sign, and what follows it. -/
def splitSign : List Char → Bool × List Char
  | '-' :: cs => (true, cs)
  | '+' :: cs => (false, cs)
  | cs => (false, cs)

/-- The digits of a whole number, without a zero in front. -/
def wholeDigits? (cs : List Char) : Option (List Char) :=
  (digits? Char.isDigit cs).filter fun ds => ds.length = 1 || ds.head? ≠ some '0'

/-- An integer that fits in 64 bits. -/
def bounded? (n : Int) : Option Int :=
  if -9223372036854775808 ≤ n ∧ n < 9223372036854775808 then some n else none

/-- The value of a digit in a base up to sixteen. -/
def digitValue? (base : Nat) (c : Char) : Option Nat :=
  (Reader.hexValue? c).filter (· < base)

/-- An integer in another base than ten. -/
def basedInteger? (base : Nat) (cs : List Char) : Option Int := do
  let ds ← digits? (fun c => (digitValue? base c).isSome) cs
  let n ← ds.foldlM (fun n c => (digitValue? base c).map (base * n + ·)) 0
  bounded? n

/-- The integer that a word stands for. -/
def integer? : List Char → Option Int
  | '0' :: 'x' :: cs => basedInteger? 16 cs
  | '0' :: 'o' :: cs => basedInteger? 8 cs
  | '0' :: 'b' :: cs => basedInteger? 2 cs
  | cs => do
    let (negative, cs) := splitSign cs
    let n := decimalValue (← wholeDigits? cs)
    bounded? (if negative then -(n : Int) else n)

/-- The double nearest to `digits * 10 ^ exponent`; `none` if it is too large. Far outside the range
of doubles the power is not computed. -/
def nearestReal? (digits : List Char) (exponent : Int) : Option Number.Binary :=
  let significant := digits.dropWhile (· = '0')
  let magnitude := exponent + significant.length
  if significant = [] ∨ magnitude < -400 then some ⟨0, Number.Binary.minExponent⟩
  else if 400 < magnitude then none
  else
    Number.Binary.nearest? (decimalValue significant * Nat.pow 10 exponent.toNat)
      (Nat.pow 10 (-exponent).toNat)

/-- The exponent behind its letter. -/
def exponent? (cs : List Char) : Option Int := do
  let (negative, cs) := splitSign cs
  let n := decimalValue (← digits? Char.isDigit cs)
  return if negative then -(n : Int) else n

/-- The text before the first character where `p` holds, and what follows that character. -/
def cutAt (p : Char → Bool) (cs : List Char) : List Char × Option (List Char) :=
  match cs.dropWhile (fun c => !p c) with
  | [] => (cs, none)
  | _ :: after => (cs.takeWhile fun c => !p c, some after)

/-- The real number that a word stands for. It has a fraction, an exponent or both. -/
def real? (cs : List Char) : Option Real := do
  let (negative, cs) := splitSign cs
  if cs = ['i', 'n', 'f'] then return .infinite negative
  if cs = ['n', 'a', 'n'] then return .nan
  let (mantissa, power) := cutAt (fun c => c = 'e' || c = 'E') cs
  let (whole, fraction) := cutAt (· = '.') mantissa
  if power.isNone && fraction.isNone then none
  let whole ← wholeDigits? whole
  let places ← match fraction with
    | none => some []
    | some f => digits? Char.isDigit f
  let exponent ← match power with
    | none => some 0
    | some p => exponent? p
  return .finite negative (← nearestReal? (whole ++ places) (exponent - places.length))

/-! ## Dates -/

namespace Reader

/-- A number of exactly so many decimal digits between two bounds. -/
def field (width low high : Nat) : Reader Unit := fun cs =>
  let ds := cs.take width
  if ds.length = width && ds.all Char.isDigit && low ≤ decimalValue ds &&
    decimalValue ds ≤ high then some (⟨⟩, cs.drop width) else none

/-- The years with a 29th of February. -/
def isLeapYear (year : Nat) : Bool :=
  year % 4 = 0 && (year % 100 ≠ 0 || year % 400 = 0)

/-- How many days a month has. -/
def daysOfMonth (year month : Nat) : Nat :=
  if month = 2 then if isLeapYear year then 29 else 28
  else if [4, 6, 9, 11].contains month then 30
  else 31

/-- A year, a month and a day. -/
def calendarDate : Reader Unit := do
  let year := decimalValue ((← rest).take 4)
  field 4 0 9999
  expect '-'
  let month := decimalValue ((← rest).take 2)
  field 2 1 12
  expect '-'
  field 2 1 (daysOfMonth year month)

/-- An hour and a minute, perhaps a second, perhaps a part of it. -/
def clockTime : Reader Unit := do
  field 2 0 23
  expect ':'
  field 2 0 59
  if ← skip [':'] then
    field 2 0 60
    if ← skip ['.'] then
      if (← takeWhile Char.isDigit) = [] then refuse

/-- How far the clock is from universal time. -/
def offset : Reader Unit := do
  if ← skipOne ['Z', 'z'] then return
  if ← skipOne ['+', '-'] then
    let hours := decimalValue ((← rest).take 2)
    field 2 0 24
    expect ':'
    field 2 0 (if hours = 24 then 0 else 99)

/-- A date, a time, or a date with a time and perhaps an offset. -/
def dateAndTime : Reader Unit := do
  if ((← rest).drop 2).head? = some ':' then clockTime
  else
    calendarDate
    if ← skipOne ['T', 't', ' '] then
      clockTime
      offset

end Reader

/-- The word is a date or a time. -/
def isDate (cs : List Char) : Bool :=
  match Reader.dateAndTime cs with
  | some (_, []) => true
  | _ => false

/-! ## Words -/

/-- The value that a word stands for. -/
def wordValue? (cs : List Char) : Option Value :=
  if cs = ['t', 'r', 'u', 'e'] then some (.boolean true)
  else if cs = ['f', 'a', 'l', 's', 'e'] then some (.boolean false)
  else if isDate cs then some (.date (String.ofList cs))
  else match integer? cs with
    | some n => some (.integer n)
    | none => (real? cs).map .real

namespace Reader

/-- A character that a word can have. -/
def isWordChar (c : Char) : Bool :=
  c.isAlphanum || c = '_' || c = '+' || c = '-' || c = '.' || c = ':'

/-- A word. A date may be followed by a time behind one blank. -/
def word : Reader Value := do
  let first ← takeWhile isWordChar
  let cs ← rest
  let whole ← if isDate first && cs.head? = some ' ' && cs.tail.head?.any Char.isDigit then do
      let _ ← next
      pure (first ++ ' ' :: (← takeWhile isWordChar))
    else pure first
  match wordValue? whole with
  | some v => return v
  | none => refuse

/-- A text or a word. -/
def scalar : Reader Value := do
  match ← quotedText '"' with
  | some cs => return .string (String.ofList cs)
  | none =>
    match ← quotedText '\'' with
    | some cs => return .string (String.ofList cs)
    | none => word

end Reader

end Zipship.Toml
