/-!
# How programs end

The operating system describes the end of a program in one number. Its low seven bits are zero when
the program returned a code, which then stands in the next eight bits; otherwise they are the signal
that ended it, or all set when it was only stopped.
-/

namespace Zipship

/-- How a program ended, as the operating system says it. -/
structure WaitStatus where
  raw : Int
  deriving DecidableEq, Repr

namespace WaitStatus

/-- The status of a program that returns a code. -/
def ofCode (code : Nat) : WaitStatus := ⟨256 * (code % 256 : Nat)⟩

/-- The status of a program that a signal ends. -/
def ofSignal (signal : Nat) : WaitStatus := ⟨signal⟩

/-- The low seven bits. -/
def low (w : WaitStatus) : Int := w.raw % 128

/-- The program returned zero. -/
def success (w : WaitStatus) : Bool := w.raw = 0

/-- The code to pass on: the program's own, or 128 more than the signal that ended it. -/
def exitCode (w : WaitStatus) : Int :=
  if w.low = 0 then w.raw / 256 % 256
  else if w.low = 127 then 1
  else 128 + w.low

end WaitStatus

end Zipship
