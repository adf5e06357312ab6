/-!
# JSON values

The values that reports are written in. The fields of an object are kept in the order in which they
are written.
-/

namespace Zipship

/-- A JSON value without fractions. -/
inductive Json where
  | null
  | bool (b : Bool)
  | int (n : Int)
  | str (s : String)
  | arr (items : List Json)
  | obj (fields : List (String × Json))
  deriving Repr, Inhabited

namespace Json

/-- A natural number. -/
def nat (n : Nat) : Json := int n

end Json

end Zipship
