import Zipship.Json.Value
import Zipship.Toml.Text

/-!
# Reading JSON

`read?` gives the value that a text is, with blanks wherever they may stand. In quotes a character
may stand for itself or be escaped, as one or as two units of 16 bits. Numbers are whole, as those
of a `Json` are: a fraction or an exponent is refused, and so is a zero in front. `field?` looks for
a field in a value that was read.

A reader takes what it understands from the front of some characters and gives back what follows.
-/

namespace Zipship.Json

namespace Reader

/-- A blank between the parts of a value. -/
def isBlank (c : Char) : Bool := c = ' ' || c = '\t' || c = '\n' || c = '\r'

/-- What follows the blanks. -/
def skipBlanks (cs : List Char) : List Char := cs.dropWhile isBlank

/-- What follows a mark and the blanks in front of it. -/
def mark? (mark : Char) (cs : List Char) : Option (List Char) :=
  match skipBlanks cs with
  | c :: rest => if c = mark then some rest else none
  | [] => none

/-! ## Texts -/

/-- A unit of 16 bits in hexadecimal digits. -/
def unit? (cs : List Char) : Option (Nat × List Char) :=
  if cs.length < 4 then none
  else (Toml.Reader.hexNumber? (cs.take 4)).map fun n => (n, cs.drop 4)

/-- The character of one unit, or of two that make a pair. -/
def codePoint? (cs : List Char) : Option (Char × List Char) := do
  let (unit, cs) ← unit? cs
  if unit.isValidChar then return (Char.ofNat unit, cs)
  match cs with
  | '\\' :: 'u' :: cs => do
    let (second, cs) ← unit? cs
    if unit < 0xdc00 ∧ 0xdc00 ≤ second ∧ second < 0xe000 then
      return (Char.ofNat (0x10000 + (unit - 0xd800) * 0x400 + (second - 0xdc00)), cs)
    else none
  | _ => none

/-- The letters that escape a character, and the character. -/
def escapes : List (Char × Char) :=
  [('"', '"'), ('\\', '\\'), ('/', '/'), ('b', '\x08'), ('f', '\x0c'), ('n', '\n'), ('r', '\r'),
   ('t', '\t')]

/-- A character of a text, escaped or not. -/
def char? : List Char → Option (Char × List Char)
  | [] => none
  | '\\' :: 'u' :: cs => codePoint? cs
  | '\\' :: letter :: cs => (escapes.lookup letter).map fun c => (c, cs)
  | c :: cs => if c = '\\' ∨ c.toNat < 0x20 then none else some (c, cs)

/-- The characters of a text up to its closing quote; `fuel` bounds their number. -/
def textChars? : Nat → List Char → Option (List Char × List Char)
  | 0, _ => none
  | fuel + 1, cs =>
    if cs.head? = some '"' then some ([], cs.tail)
    else do
      let (c, cs) ← char? cs
      let (text, cs) ← textChars? fuel cs
      return (c :: text, cs)

/-- A text behind its opening quote. -/
def text? (cs : List Char) : Option (String × List Char) :=
  (textChars? cs.length cs).map fun (text, rest) => (String.ofList text, rest)

/-! ## Numbers and words -/

/-- The digits of a whole number, without a zero in front. -/
def natural? (cs : List Char) : Option (Nat × List Char) :=
  let digits := cs.takeWhile Char.isDigit
  if digits = [] ∨ digits.head? = some '0' ∧ digits ≠ ['0'] then none
  else some (Nat.ofDigitChars 10 digits 0, cs.dropWhile Char.isDigit)

/-- A whole number, perhaps behind a minus sign. -/
def integer? (cs : List Char) : Option (Int × List Char) :=
  if cs.head? = some '-' then (natural? cs.tail).map fun (n, rest) => (-n, rest)
  else (natural? cs).map fun (n, rest) => (n, rest)

/-- The words, and the values that they stand for. -/
def words : List (List Char × Json) :=
  [("null".toList, null), ("true".toList, bool true), ("false".toList, bool false)]

/-- A value that holds no other ones. -/
def scalar? (cs : List Char) : Option (Json × List Char) :=
  match mark? '"' cs with
  | some cs => (text? cs).map fun (s, rest) => (str s, rest)
  | none =>
    let cs := skipBlanks cs
    match words.find? fun w => w.1.isPrefixOf cs with
    | some w => some (w.2, cs.drop w.1.length)
    | none => (integer? cs).map fun (n, rest) => (int n, rest)

/-! ## Arrays and objects -/

section Sequences

variable {α : Type}

/-- One element or more with commas between them, up to the mark that closes them; `fuel` bounds
their number. -/
def elements? (element : List Char → Option (α × List Char)) (close : Char) :
    Nat → List Char → Option (List α × List Char)
  | 0, _ => none
  | fuel + 1, cs => do
    let (a, cs) ← element cs
    match mark? close cs with
    | some cs => return ([a], cs)
    | none => do
      let (as, cs) ← elements? element close fuel (← mark? ',' cs)
      return (a :: as, cs)

/-- Any number of elements with commas between them, up to the mark that closes them. -/
def sequence? (element : List Char → Option (α × List Char)) (close : Char) (cs : List Char) :
    Option (List α × List Char) :=
  match mark? close cs with
  | some cs => some ([], cs)
  | none => elements? element close cs.length cs

end Sequences

/-- A field of an object: its key, a colon and its value. -/
def member? (value : List Char → Option (Json × List Char)) (cs : List Char) :
    Option ((String × Json) × List Char) := do
  let (key, cs) ← text? (← mark? '"' cs)
  let (j, cs) ← value (← mark? ':' cs)
  return ((key, j), cs)

/-- A value. `fuel` bounds how deep values are in each other. -/
def value? : Nat → List Char → Option (Json × List Char)
  | 0, _ => none
  | fuel + 1, cs =>
    match mark? '[' cs, mark? '\x7b' cs with
    | some cs, _ => (sequence? (value? fuel) ']' cs).map fun (items, rest) => (arr items, rest)
    | none, some cs =>
      (sequence? (member? (value? fuel)) '\x7d' cs).map fun (fields, rest) => (obj fields, rest)
    | none, none => scalar? cs

end Reader

/-- The value that a text is. No value in it is deeper than the text is long. -/
def read? (s : String) : Option Json := do
  let (j, rest) ← Reader.value? s.toList.length s.toList
  if Reader.skipBlanks rest = [] then some j else none

/-- The value of a field of an object. -/
def field? (key : String) : Json → Option Json
  | obj fields => fields.lookup key
  | _ => none

end Zipship.Json
