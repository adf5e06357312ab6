/-!
# Rounding

`divHalfEven` rounds a quotient of natural numbers to the nearest whole number, a half going to the
even neighbour. `Binary` is a number `mantissa * 2 ^ exponent`; `Binary.ofQuotient` rounds a
quotient to 53 significant bits by the same rule. The exponents that occur stay far inside the
range of a double, so no number overflows or becomes subnormal.
-/

namespace Zipship.Number

/-- The quotient rounded to the nearest whole number, a half to the even one. -/
def divHalfEven (num den : Nat) : Nat :=
  let q := num / den
  let r := num % den
  if 2 * r < den then q
  else if den < 2 * r then q + 1
  else if q % 2 = 0 then q else q + 1

/-- The rounded quotient is within half a unit of the exact one. -/
theorem divHalfEven_near (num : Nat) {den : Nat} (hd : 0 < den) :
    2 * num ≤ (2 * divHalfEven num den + 1) * den ∧
      2 * divHalfEven num den * den ≤ 2 * num + den := by
  have hm : den * (num / den) + num % den = num := Nat.div_add_mod num den
  have hr : num % den < den := Nat.mod_lt _ hd
  have e1 : (2 * (num / den) + 1) * den = 2 * (den * (num / den)) + den := by
    rw [Nat.add_mul, Nat.one_mul, Nat.mul_assoc, Nat.mul_comm (num / den)]
  have e2 : (2 * (num / den + 1) + 1) * den = 2 * (den * (num / den)) + 3 * den := by
    rw [Nat.add_mul, Nat.one_mul, Nat.mul_assoc, Nat.add_mul, Nat.one_mul,
      Nat.mul_comm (num / den), Nat.mul_add]
    omega
  have e3 : 2 * (num / den) * den = 2 * (den * (num / den)) := by
    rw [Nat.mul_assoc, Nat.mul_comm (num / den)]
  have e4 : 2 * (num / den + 1) * den = 2 * (den * (num / den)) + 2 * den := by
    rw [Nat.mul_assoc, Nat.add_mul, Nat.one_mul, Nat.mul_comm (num / den), Nat.mul_add]
  simp only [divHalfEven]
  split
  · rw [e1, e3]; omega
  · split
    · rw [e2, e4]; omega
    · split
      · rw [e1, e3]; omega
      · rw [e2, e4]; omega

/-- The number `mantissa * 2 ^ exponent`. -/
structure Binary where
  mantissa : Nat
  exponent : Int
  deriving DecidableEq, Repr

namespace Binary

/-- How many significant bits a number is rounded to. -/
def precision : Nat := 53

/-- The numerator of the number as a fraction in which only powers of two divide. -/
def num (b : Binary) : Nat := b.mantissa * Nat.pow 2 b.exponent.toNat

/-- The denominator of the number as a fraction in which only powers of two divide. -/
def den (b : Binary) : Nat := Nat.pow 2 (-b.exponent).toNat

/-- `num / den` on the grid of multiples of `2 ^ e`, a half to the even multiple. -/
def onGrid (num den : Nat) (e : Int) : Binary :=
  ⟨divHalfEven (num * Nat.pow 2 (-e).toNat) (den * Nat.pow 2 e.toNat), e⟩

/-- The exponent of the grid on which `num / den` has `precision` significant bits. -/
def gridExponent (num den : Nat) : Int :=
  let guess : Int := (num.log2 : Int) - (den.log2 : Int) - (precision : Int)
  -- the quotient lies between `2 ^ (guess + precision - 1)` and `2 ^ (guess + precision + 1)`
  let e := guess + precision
  if den * Nat.pow 2 e.toNat ≤ num * Nat.pow 2 (-e).toNat then guess + 1
  else guess

/-- The quotient rounded to `precision` significant bits, a half to the even neighbour. -/
def ofQuotient (num den : Nat) : Binary :=
  if num = 0 then ⟨0, 0⟩ else onGrid num den (gridExponent num den)

/-- A whole number rounded to `precision` significant bits. -/
def ofNat (n : Nat) : Binary := ofQuotient n 1

/-- The sum, rounded. -/
def add (a b : Binary) : Binary := ofQuotient (a.num * b.den + b.num * a.den) (a.den * b.den)

/-- The number with one factor `2 ^ k` less. -/
def shiftDown (b : Binary) (k : Nat) : Binary := ⟨b.mantissa, b.exponent - k⟩

/-- The number times `10 ^ places`, rounded to a whole number, a half to the even one. -/
def scaled (b : Binary) (places : Nat) : Nat := divHalfEven (b.num * Nat.pow 10 places) b.den

end Binary

/-- A count of units of `10 ^ -places`, for `0 < places`, as a decimal with that many places. -/
def fixedPoint (scaled places : Nat) : String :=
  let digits := Nat.toDigits 10 (scaled % Nat.pow 10 places)
  let zeros := List.replicate (places - digits.length) '0'
  toString (scaled / Nat.pow 10 places) ++ "." ++ String.ofList (zeros ++ digits)

end Zipship.Number
