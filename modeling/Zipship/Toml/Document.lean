import Zipship.Toml.Building
import Zipship.Toml.Scalar

/-!
# Documents

A document is read line by line: a heading opens a table, a key with a value goes into the table
that was opened last. `parse?` gives the table that the whole text denotes, or nothing if it is not
a document.
-/

namespace Zipship.Toml

namespace Reader

/-- A character that a key can have without quotes. -/
def isKeyChar (c : Char) : Bool := c.isAlphanum || c = '_' || c = '-'

/-- One part of a key. -/
def keyText : Reader (List Char) := do
  if ← skip ['"'] then lineText '"'
  else if ← skip ['\''] then lineText '\''
  else
    let cs ← takeWhile isKeyChar
    if cs = [] then refuse else return cs

/-- One part of a key, and the blanks around it. -/
def keyPart : Reader String := do
  blanks
  let cs ← keyText
  blanks
  return String.ofList cs

/-- A part of a key behind a dot; `none` if there is no dot. -/
def dottedPart : Reader (Option String) := do
  if ← skip ['.'] then return some (← keyPart) else return none

/-- A key: parts with dots between them. -/
def key : Reader (List String) := do
  let first ← keyPart
  let others ← many dottedPart
  return first :: others

/-- A comma, or what closes the brackets, which is left. -/
def separator (close : Char) : Reader Unit := do
  if !(← skip [',']) && (← peek) ≠ some close then refuse

/-- The next item between brackets, and what separates it from others; `none` at the end. -/
def bracketedItem {α : Type} (close : Char) (item : Reader α) : Reader (Option α) := do
  if (← peek) = some close then return none
  let a ← item
  blankLines
  separator close
  blankLines
  return some a

/-- Items between brackets, behind the opening one, with commas between them; a comma may also
follow the last one. -/
def bracketed {α : Type} (close : Char) (item : Reader α) : Reader (List α) := do
  blankLines
  let items ← many (bracketedItem close item)
  expect close
  return items

/-- A key, an equals sign and what is read behind it. -/
def assignment {α : Type} (item : Reader α) : Reader (List String × α) := do
  let path ← key
  expect '='
  blanks
  return (path, ← item)

/-- How deep values may be nested. -/
def maxDepth : Nat := 80

/-- A value that opens at most so many brackets inside each other. -/
def value : Nat → Reader Value
  | 0 => scalar
  | depth + 1 => do
    if ← skip ['['] then
      return .array (← bracketed ']' (value depth))
    else if ← skip ['\x7b'] then
      let pairs ← bracketed '\x7d' (assignment (value depth))
      match pairs.foldlM (fun slots (path, v) => Slots.insert? v path slots) [] with
      | some slots => return .table (finishSlots slots)
      | none => refuse
    else scalar

/-- A line of a document. -/
inductive Line where
  | empty
  | pair (path : List String) (v : Value)
  | heading (path : List String)
  /-- The heading of one of a list of tables. -/
  | rowHeading (path : List String)

/-- A heading in one pair of brackets or in two. -/
def headingLine : Reader Line := do
  if ← skip ['[', '['] then
    let path ← key
    expect ']'
    expect ']'
    return .rowHeading path
  else
    expect '['
    let path ← key
    expect ']'
    return .heading path

/-- What a line says, up to its comment. -/
def lineContent : Reader Line := do
  blanks
  match ← peek with
  | none => return .empty
  | some c =>
    if c = '#' || c = '\n' || c = '\r' then return .empty
    else if c = '[' then headingLine
    else
      let (path, v) ← assignment (value maxDepth)
      return .pair path v

/-- A line with its end; `none` at the end of the text. -/
def line : Reader (Option Line) := do
  if (← peek) = none then return none
  let content ← lineContent
  blanks
  comment
  if !(← lineEnd) && (← peek) ≠ none then refuse
  return some content

end Reader

/-- A document being read: its contents so far, and the heading of the table that is open. -/
structure Draft where
  slots : Slots
  heading : List String

namespace Draft

/-- Add what a line says. -/
def add? (d : Draft) : Reader.Line → Option Draft
  | .empty => some d
  | .pair path v =>
    let insert := Slots.insert? v path
    let slots := if d.heading = [] then insert d.slots
      else Slots.atHeading? (Slots.inOpened? insert) d.heading d.slots
    slots.map fun slots => { d with slots }
  | .heading path =>
    (Slots.atHeading? Slots.openTable? path d.slots).map fun slots => ⟨slots, path⟩
  | .rowHeading path =>
    (Slots.atHeading? Slots.openRow? path d.slots).map fun slots => ⟨slots, path⟩

end Draft

/-- The characters of a document without the mark of its encoding at the very start. -/
def withoutMark : List Char → List Char
  | '\ufeff' :: cs => cs
  | cs => cs

/-- The table that a text denotes; `none` if it is not a document. -/
def parse? (text : String) : Option Table := do
  let (lines, _) ← (Reader.many Reader.line) (withoutMark text.toList)
  let draft ← lines.foldlM Draft.add? ⟨[], []⟩
  return finishSlots draft.slots

end Zipship.Toml
