import Zipship.Number.Shortest

/-!
# Values of a document

A document is a table: a list of keys with their values, no key twice. Dates are kept as they are
written, since nothing looks into them.
-/

namespace Zipship.Toml

/-- A number of limited precision. -/
inductive Real where
  | nan
  | infinite (negative : Bool)
  | finite (negative : Bool) (magnitude : Number.Binary)
  deriving DecidableEq, Repr

namespace Real

/-- A minus sign if there is one to write. -/
def sign (negative : Bool) : String := if negative then "-" else ""

/-- The number in as few digits as tell it from its neighbours, always with a point. -/
def text : Real → String
  | nan => "NaN"
  | infinite negative => sign negative ++ "inf"
  | finite negative magnitude => sign negative ++ magnitude.shortest.positional

end Real

/-- A value of a document. -/
inductive Value where
  | string (s : String)
  | integer (n : Int)
  | real (x : Real)
  | boolean (b : Bool)
  /-- A date, a time or both. -/
  | date (text : String)
  | array (items : List Value)
  | table (entries : List (String × Value))
  deriving Repr, Inhabited

/-- Keys with their values. -/
abbrev Table := List (String × Value)

end Zipship.Toml
