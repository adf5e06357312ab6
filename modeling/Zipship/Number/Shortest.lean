import Zipship.Number.Rounding

/-!
# Shortest decimals

A double is `mantissa * 2 ^ exponent` with a mantissa of at most 53 bits and an exponent of at least
-1074. `nearest?` rounds a fraction to one, unless it is too large. `shortest` finds the decimal
with the fewest digits that rounds back to it: the coarsest grid of powers of ten with a point
inside the rounding interval is taken, and on it the point that is nearer to the number.
-/

namespace Zipship.Number

/-- A decimal `digits * 10 ^ exponent`. -/
structure Decimal where
  digits : Nat
  exponent : Int
  deriving DecidableEq, Repr

namespace Binary

/-- The smallest exponent that a double has. -/
def minExponent : Int := -1074

/-- The number with a mantissa below `2 ^ 53`, where rounding carried it to that power. -/
def normal (b : Binary) : Binary :=
  if b.mantissa = Nat.pow 2 53 then ⟨Nat.pow 2 52, b.exponent + 1⟩ else b

/-- The double nearest to a fraction, a half to the even neighbour; `none` if it is too large. -/
def nearest? (num den : Nat) : Option Binary :=
  if num = 0 then some ⟨0, minExponent⟩
  else
    let b := normal (onGrid num den (max minExponent (gridExponent num den)))
    if Nat.pow 2 1024 * b.den ≤ b.num then none else some b

/-- The ends of the interval of numbers that round to a double, in quarters of its last place. Just
below a power of two the doubles lie twice as dense. -/
def interval (b : Binary) : Nat × Nat :=
  let lower := if b.mantissa = Nat.pow 2 52 && minExponent < b.exponent then 1 else 2
  (4 * b.mantissa - lower, 4 * b.mantissa + 2)

/-- The point `digits * 10 ^ k` rounds to the double. -/
def holds (b : Binary) (digits : Nat) (k : Int) : Bool :=
  let (low, high) := b.interval
  -- both sides are multiplied by `10 ^ -k` and by `2 ^ -(exponent - 2)`, whichever are whole
  let e := b.exponent - 2
  let point := digits * Nat.pow 10 k.toNat * Nat.pow 2 (-e).toNat
  let low := low * Nat.pow 10 (-k).toNat * Nat.pow 2 e.toNat
  let high := high * Nat.pow 10 (-k).toNat * Nat.pow 2 e.toNat
  if b.mantissa % 2 = 0 then low ≤ point && point ≤ high else low < point && point < high

/-- The point of the grid `10 ^ k` that rounds to the double and is nearest to it, the higher one of
two that are equally near. -/
def onDecimalGrid? (b : Binary) (k : Int) : Option Decimal :=
  let num := b.num * Nat.pow 10 (-k).toNat
  let den := b.den * Nat.pow 10 k.toNat
  let below := num / den
  let nearer := if den ≤ 2 * (num % den) then below + 1 else below
  let other := if nearer = below then below + 1 else below
  if b.holds nearer k then some ⟨nearer, k⟩
  else if b.holds other k then some ⟨other, k⟩
  else none

/-- Try finer and finer grids; `fuel` bounds how many. -/
def shortestFrom (b : Binary) : Nat → Int → Decimal
  | 0, k => ⟨0, k⟩
  | fuel + 1, k =>
    match b.onDecimalGrid? k with
    | some d => d
    | none => shortestFrom b fuel (k - 1)

/-- The decimal with the fewest digits that rounds to the double. -/
def shortest (b : Binary) : Decimal :=
  if b.mantissa = 0 then ⟨0, 0⟩
  else
    let places := (Nat.toDigits 10 (b.num / b.den)).length
    shortestFrom b (places + 1100) places

end Binary

namespace Decimal

/-- The decimal with a point and without an exponent. -/
def positional (d : Decimal) : String :=
  if 0 ≤ d.exponent then toString (d.digits * Nat.pow 10 d.exponent.toNat) ++ ".0"
  else fixedPoint d.digits (-d.exponent).toNat

end Decimal

end Zipship.Number
