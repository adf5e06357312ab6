/-!
# Reading characters

A `Reader` takes what it understands from the front of a text, or refuses the text. The readers of
this module know nothing of values yet: blanks, comments, line ends.
-/

namespace Zipship.Toml

/-- Takes an `α` from the front of a text, or refuses the text. -/
abbrev Reader (α : Type) := StateT (List Char) Option α

namespace Reader

/-- Refuse the text. -/
def refuse {α : Type} : Reader α := fun _ => none

/-- The next character, without taking it. -/
def peek : Reader (Option Char) := fun cs => some (cs.head?, cs)

/-- The rest of the text, without taking it. -/
def rest : Reader (List Char) := fun cs => some (cs, cs)

/-- Take the next character. -/
def next : Reader Char
  | [] => none
  | c :: cs => some (c, cs)

/-- Take the next character, which has to be `c`. -/
def expect (c : Char) : Reader Unit := do
  if (← next) ≠ c then refuse

/-- Take the characters of `word` if they come next, and say whether they did. -/
def skip (word : List Char) : Reader Bool := fun cs =>
  if word.isPrefixOf cs then some (true, cs.drop word.length) else some (false, cs)

/-- Take the next character if it is one of some, and say whether it was. -/
def skipOne (choices : List Char) : Reader Bool
  | [] => some (false, [])
  | c :: cs => if choices.contains c then some (true, cs) else some (false, c :: cs)

/-- Take characters as long as `p` holds. -/
def takeWhile (p : Char → Bool) : Reader (List Char) := fun cs =>
  some (cs.takeWhile p, cs.dropWhile p)

/-- Read again and again until `step` says that it was the last time; `fuel` bounds how often. -/
def loop {α : Type} (step : Reader (Option α)) : Nat → Reader (List α)
  | 0 => refuse
  | fuel + 1 => do
    match ← step with
    | none => return []
    | some a => return a :: (← loop step fuel)

/-- Read again and again until `step` says that it was the last time. Each step but the last takes
a character, so the length of the text bounds how often. -/
def many {α : Type} (step : Reader (Option α)) : Reader (List α) := do
  loop step ((← rest).length + 1)

/-- A blank within a line. -/
def isBlank (c : Char) : Bool := c = ' ' || c = '\t'

/-- A character that cannot stand in a line. -/
def isControl (c : Char) : Bool := (c.toNat < 0x20 && c ≠ '\t') || c.toNat = 0x7f

/-- Skip blanks within a line. -/
def blanks : Reader Unit := do
  let _ ← takeWhile isBlank

/-- Take a line end if one comes next, and say whether it did. -/
def lineEnd : Reader Bool := do
  if ← skip ['\n'] then return true
  skip ['\r', '\n']

/-- Take a comment up to the line end if one comes next. -/
def comment : Reader Unit := do
  if (← peek) = some '#' then
    let _ ← takeWhile fun c => !isControl c

/-- Skip blanks and a comment, and their line end; `none` if that does not follow. -/
def blankLine : Reader (Option Unit) := do
  blanks
  comment
  return if ← lineEnd then some () else none

/-- Skip blanks and comments over as many lines as they fill. -/
def blankLines : Reader Unit := do
  let _ ← many blankLine

end Reader

end Zipship.Toml
