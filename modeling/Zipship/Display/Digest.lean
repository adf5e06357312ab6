/-!
# Short digests

A digest is shown by its first twelve bytes, or whole when it is shorter or a character lies across
that boundary.
-/

namespace Zipship.Display

/-- How many bytes of a digest are shown. -/
def shownDigestBytes : Nat := 12

/-- The characters that fill exactly `n` bytes of UTF-8, if some initial part of the text does. -/
def takeBytes? : Nat → List Char → Option (List Char)
  | 0, _ => some []
  | _ + 1, [] => none
  | n + 1, c :: cs =>
    if c.utf8Size ≤ n + 1 then (takeBytes? (n + 1 - c.utf8Size) cs).map (c :: ·) else none

/-- The leading part of a digest that is enough to tell builds apart. -/
def shortDigest (digest : String) : String :=
  match takeBytes? shownDigestBytes digest.toList with
  | some cs => String.ofList cs
  | none => digest

end Zipship.Display
