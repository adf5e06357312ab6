import Zipship.Digest.Hex
import Zipship.Json.Value

/-!
# Writing JSON

A value is written in a `Layout`, which says where blanks stand. `compact` has none. `pretty` gives
each item of an array and each field of an object a line of its own, two blanks deeper than what
holds it; an empty one stays on its line. In texts only what has to be escaped is: quotes,
backslashes and control characters.
-/

namespace Zipship.Json

/-- How one character is written inside quotes. -/
def escapeChar (c : Char) : List Char :=
  if c = '"' then ['\\', '"']
  else if c = '\\' then ['\\', '\\']
  else if c = '\x08' then ['\\', 'b']
  else if c = '\x0c' then ['\\', 'f']
  else if c = '\n' then ['\\', 'n']
  else if c = '\r' then ['\\', 'r']
  else if c = '\t' then ['\\', 't']
  else if c.toNat < 0x20 then
    ['\\', 'u', '0', '0', Digest.hexDigit (c.toNat / 16), Digest.hexDigit (c.toNat % 16)]
  else [c]

/-- A text between quotes. -/
def quote (s : String) : List Char := '"' :: s.toList.flatMap escapeChar ++ ['"']

/-- The decimal digits of a number, behind a minus sign if it is negative. -/
def intChars (n : Int) : List Char :=
  if n < 0 then '-' :: Nat.toDigits 10 n.natAbs else Nat.toDigits 10 n.natAbs

/-- The text of a truth value. -/
def boolChars (b : Bool) : List Char := if b then "true".toList else "false".toList

/-- Where blanks stand in the text of a value: in front of each item of an array, of each field of
an object and of the mark that closes them, by how deep they are, and behind the colon of a field.
-/
structure Layout where
  gap : Nat → List Char
  space : List Char

mutual

/-- The text of a value that stands at some depth. Nothing stands between the marks of an empty
array or object. -/
def chars (l : Layout) (depth : Nat) : Json → List Char
  | null => "null".toList
  | bool b => boolChars b
  | int n => intChars n
  | str s => quote s
  | arr [] => ['[', ']']
  | arr (item :: rest) =>
    '[' :: itemsChars l (depth + 1) (item :: rest) ++ l.gap depth ++ [']']
  | obj [] => ['\x7b', '\x7d']
  | obj (field :: rest) =>
    '\x7b' :: fieldsChars l (depth + 1) (field :: rest) ++ l.gap depth ++ ['\x7d']

/-- The items of an array with commas between them. -/
def itemsChars (l : Layout) (depth : Nat) : List Json → List Char
  | [] => []
  | [item] => l.gap depth ++ chars l depth item
  | item :: rest => l.gap depth ++ chars l depth item ++ ',' :: itemsChars l depth rest

/-- The fields of an object with commas between them. -/
def fieldsChars (l : Layout) (depth : Nat) : List (String × Json) → List Char
  | [] => []
  | [(key, value)] => l.gap depth ++ quote key ++ ':' :: l.space ++ chars l depth value
  | (key, value) :: rest =>
    l.gap depth ++ quote key ++ ':' :: l.space ++ chars l depth value ++
      ',' :: fieldsChars l depth rest

end

/-- The layout without any blank. -/
def Layout.compact : Layout := ⟨fun _ => [], []⟩

/-- The layout that starts a new line, indented by the depth. -/
def Layout.pretty : Layout := ⟨fun depth => '\n' :: List.replicate (2 * depth) ' ', [' ']⟩

/-- The text of a value without any blank. -/
def compact (j : Json) : String := String.ofList (chars .compact 0 j)

/-- The text of a value over several lines. -/
def pretty (j : Json) : String := String.ofList (chars .pretty 0 j)

end Zipship.Json
