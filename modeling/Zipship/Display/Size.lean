import Zipship.Number.Rounding

/-!
# Sizes for people

A size below 1024 is shown in bytes; a larger one in the largest of KB, MB and GB that it reaches,
with one decimal. The count is first rounded to 53 significant bits, then the decimal is rounded,
each time with halves to even.
-/

namespace Zipship.Display

open Zipship.Number

/-- The units of a size, smallest first. -/
inductive Unit where
  | bytes | kilo | mega | giga
  deriving DecidableEq, Repr

namespace Unit

/-- How many times 1024 is multiplied by itself in the unit. -/
def power : Unit → Nat
  | bytes => 0
  | kilo => 1
  | mega => 2
  | giga => 3

/-- How many bytes the unit has. -/
def size (u : Unit) : Nat := Nat.pow 1024 u.power

/-- How the unit is written. -/
def symbol : Unit → String
  | bytes => "B"
  | kilo => "KB"
  | mega => "MB"
  | giga => "GB"

/-- The largest unit that a rounded count reaches. -/
def ofCount (b : Binary) : Unit :=
  if giga.size * b.den ≤ b.num then giga
  else if mega.size * b.den ≤ b.num then mega
  else kilo

end Unit

/-- The unit in which a size is shown. -/
def sizeUnit (n : Nat) : Unit :=
  if n < 1024 then .bytes else .ofCount (.ofNat n)

/-- The shown number in tenths of the shown unit; for bytes the number itself, in tenths. -/
def sizeTenths (n : Nat) : Nat :=
  if n < 1024 then 10 * n
  else ((Binary.ofNat n).shiftDown (10 * (sizeUnit n).power)).scaled 1

/-- The text of a size. -/
def formatBytes (n : Nat) : String :=
  if n < 1024 then s!"{n} B"
  else fixedPoint (sizeTenths n) 1 ++ " " ++ (sizeUnit n).symbol

end Zipship.Display
