import Zipship.Number.Rounding

/-!
# Durations for people

A duration below one second is shown in whole milliseconds; a longer one in seconds with two
decimals, read off the nearest 53-bit number.
-/

namespace Zipship.Display

open Zipship.Number

/-- A span of time: whole seconds and nanoseconds below one second. -/
structure Duration where
  secs : Nat
  nanos : Nat
  deriving DecidableEq, Repr

namespace Duration

/-- Nanoseconds that make a second are carried over. -/
def ofParts (secs nanos : Nat) : Duration :=
  ⟨secs + nanos / 1000000000, nanos % 1000000000⟩

/-- The span in seconds: both parts are rounded to 53 bits, and so is their sum. -/
def seconds (d : Duration) : Binary :=
  (Binary.ofNat d.secs).add (Binary.ofQuotient d.nanos 1000000000)

/-- The text of a duration. -/
def format (d : Duration) : String :=
  if d.secs = 0 then s!"{d.nanos / 1000000}ms"
  else fixedPoint (d.seconds.scaled 2) 2 ++ "s"

end Duration

end Zipship.Display
