import Zipship.Toml.Reader

/-!
# Texts of a document

A text stands between double quotes, where a backslash starts an escape, or between single quotes,
where every character stands for itself. Three quotes open and close a text that may go over several
lines; a line end right behind the opening ones does not count.
-/

namespace Zipship.Toml.Reader

/-- The value of a hexadecimal digit. -/
def hexValue? (c : Char) : Option Nat :=
  if '0' ≤ c ∧ c ≤ '9' then some (c.toNat - '0'.toNat)
  else if 'a' ≤ c ∧ c ≤ 'f' then some (c.toNat - 'a'.toNat + 10)
  else if 'A' ≤ c ∧ c ≤ 'F' then some (c.toNat - 'A'.toNat + 10)
  else none

/-- The number written in some hexadecimal digits. -/
def hexNumber? (cs : List Char) : Option Nat :=
  cs.foldlM (fun n c => (hexValue? c).map (16 * n + ·)) 0

/-- The character whose code point comes next in `digits` hexadecimal digits. -/
def codePoint (digits : Nat) : Reader Char := fun cs => do
  let written := cs.take digits
  if written.length < digits then none
  let n ← hexNumber? written
  if n.isValidChar then some (Char.ofNat n, cs.drop digits) else none

/-- What an escape stands for, behind its backslash. -/
def escape : Reader Char := do
  match ← next with
  | 'b' => return '\x08'
  | 't' => return '\t'
  | 'n' => return '\n'
  | 'f' => return '\x0c'
  | 'r' => return '\r'
  | 'e' => return '\x1b'
  | '"' => return '"'
  | '\\' => return '\\'
  | 'x' => codePoint 2
  | 'u' => codePoint 4
  | 'U' => codePoint 8
  | _ => refuse

/-- Whether a quote opens a text in which a backslash starts an escape. -/
def hasEscapes (quote : Char) : Bool := quote = '"'

/-- The next character of a text of one line; `none` at its closing quote. -/
def lineChar (quote : Char) : Reader (Option Char) := do
  let c ← next
  if c = quote then return none
  else if c = '\\' && hasEscapes quote then return some (← escape)
  else if isControl c then refuse
  else return some c

/-- The rest of a text of one line, behind its opening quote. -/
def lineText (quote : Char) : Reader (List Char) := many (lineChar quote)

/-- Skip blanks and line ends. -/
def joinedLines : Reader Unit := do
  let _ ← many do
    blanks
    return if ← lineEnd then some () else none

/-- Nothing but blanks stands between here and the end of the line. -/
def atLineEnd : Reader Bool := do
  let cs := (← rest).dropWhile isBlank
  return ['\n'].isPrefixOf cs || ['\r', '\n'].isPrefixOf cs

/-- The next part of a text of several lines. A backslash that ends a line hides that line end and
the blanks that follow. -/
def linesPart (quote : Char) : Reader (List Char) := do
  let c ← next
  if c = '\\' && hasEscapes quote then
    if ← atLineEnd then
      joinedLines
      return []
    else return [← escape]
  else if c = '\n' then return [c]
  else if c = '\r' then
    expect '\n'
    return [c, '\n']
  else if isControl c then refuse
  else return [c]

/-- How many quotes come next. -/
def quotesAhead (quote : Char) : Reader Nat := do
  return ((← rest).takeWhile (· = quote)).length

/-- The rest of a text of several lines, behind its opening quotes. Up to two quotes may stand right
before the closing ones. -/
def linesText (quote : Char) : Reader (List Char) := do
  let _ ← lineEnd
  let parts ← many do
    if 3 ≤ (← quotesAhead quote) then return none else return some (← linesPart quote)
  let inside := List.replicate (min 2 ((← quotesAhead quote) - 3)) quote
  let _ ← skip (inside ++ List.replicate 3 quote)
  return parts.flatten ++ inside

/-- A text between quotes of one kind; `none` if there is no such quote. -/
def quotedText (quote : Char) : Reader (Option (List Char)) := do
  if ← skip (List.replicate 3 quote) then return some (← linesText quote)
  else if ← skip [quote] then return some (← lineText quote)
  else return none

end Zipship.Toml.Reader
