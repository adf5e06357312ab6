import Mathlib.Data.List.TakeWhile
import Zipship.Display.Size
import Zipship.Proofs.Number.Rounding

/-!
# What the text of a size says

`Amount.read?` reads the text of a size back: a decimal, a blank and a unit. So a text stands for a
number of bytes, and the size that was shown can be compared with it.

The unit is the largest one that the size reaches, the number is off by half a decimal at most as
long as the size has no more than 53 bits, and a larger size never shows as less
(`formatBytes_faithful`). The unit is chosen by the size itself, so that the decimal may be carried
to 1024.0 of a unit that has a larger one above it; `formatBytes_number_lt_iff` says for which
sizes.
-/

namespace Zipship.Display

open Zipship.Number

namespace Unit

/-- All units, smallest first. -/
def all : List Unit := [bytes, kilo, mega, giga]

theorem sizes : bytes.size = 1 ∧ kilo.size = 1024 ∧ mega.size = 1048576 ∧
    giga.size = 1073741824 := by
  decide

theorem size_lt (u : Unit) : u.size < 2 ^ 53 := by cases u <;> decide

theorem size_eq (u : Unit) : (u.size : ℚ) = 2 ^ (10 * u.power) := by
  cases u <;> norm_num [size, power]

theorem size_pos (u : Unit) : (0 : ℚ) < u.size := by
  rw [size_eq]
  positivity

/-- A rounded number reaches a unit exactly if the number does. -/
theorem size_le_ofNat_iff (u : Unit) (n : Nat) :
    u.size * (Binary.ofNat n).den ≤ (Binary.ofNat n).num ↔ u.size ≤ n := by
  rw [← Binary.natCast_le_value_ofNat_iff u.size_lt, Binary.value_eq_div,
    le_div_iff₀ (mod_cast Binary.den_pos _)]
  exact_mod_cast Iff.rfl

end Unit

variable {n m : Nat}

/-! ## The unit -/

theorem sizeUnit_eq (n : Nat) : sizeUnit n =
    if n < 1024 then .bytes
    else if Unit.giga.size ≤ n then .giga
    else if Unit.mega.size ≤ n then .mega
    else .kilo := by
  simp only [sizeUnit, Unit.ofCount, Unit.size_le_ofNat_iff]

/-- A size reaches the unit in which it is shown, unless that is the smallest one. -/
theorem size_sizeUnit_le (hn : 1024 ≤ n) : (sizeUnit n).size ≤ n := by
  rw [sizeUnit_eq, if_neg (by omega)]
  split_ifs with hgiga hmega
  · exact hgiga
  · exact hmega
  · exact hn

/-- No larger unit is reached. -/
theorem size_le_size_sizeUnit {u : Unit} (hu : u.size ≤ n) : u.size ≤ (sizeUnit n).size := by
  obtain ⟨hbytes, hkilo, hmega, hgiga⟩ := Unit.sizes
  rw [sizeUnit_eq]
  cases u <;> split_ifs <;> omega

/-- A size that is not shown in the largest unit is smaller than the next one. -/
theorem lt_size_sizeUnit (hu : sizeUnit n ≠ .giga) : n < 1024 * (sizeUnit n).size := by
  obtain ⟨hbytes, hkilo, hmega, hgiga⟩ := Unit.sizes
  rw [sizeUnit_eq] at hu ⊢
  split_ifs at hu ⊢
  · omega
  · exact absurd rfl hu
  · omega
  · omega

/-- A size that is not shown in the largest unit is not rounded before it is shown. -/
theorem lt_of_sizeUnit_ne (hu : sizeUnit n ≠ .giga) : n < 2 ^ 53 := by
  refine (lt_size_sizeUnit hu).trans ?_
  revert hu
  cases sizeUnit n <;> decide

theorem sizeUnit_eq_bytes_iff : sizeUnit n = .bytes ↔ n < 1024 := by
  rw [sizeUnit_eq]
  split_ifs with h <;> simp [h]

/-! ## The number -/

/-- The number that is shown is a rounded one: the size in its unit. -/
def inUnit (n : Nat) : Binary := (Binary.ofNat n).shiftDown (10 * (sizeUnit n).power)

theorem sizeTenths_eq (hn : 1024 ≤ n) : sizeTenths n = (inUnit n).scaled 1 := if_neg (by omega)

theorem value_inUnit (n : Nat) :
    (inUnit n).value = (Binary.ofNat n).value / (sizeUnit n).size := by
  rw [inUnit, Binary.value_shiftDown, Unit.size_eq]

theorem one_le_value_inUnit (hn : 1024 ≤ n) : 1 ≤ (inUnit n).value := by
  rw [value_inUnit, one_le_div (Unit.size_pos _),
    Binary.natCast_le_value_ofNat_iff (Unit.size_lt _)]
  exact size_sizeUnit_le hn

theorem value_inUnit_le (hu : sizeUnit n ≠ .giga) : (inUnit n).value ≤ 1024 := by
  rw [value_inUnit, div_le_iff₀ (Unit.size_pos _), Binary.value_ofNat_of_lt (lt_of_sizeUnit_ne hu)]
  exact_mod_cast (lt_size_sizeUnit hu).le

theorem ten_le_sizeTenths (hn : 1024 ≤ n) : 10 ≤ sizeTenths n := by
  have hone := one_le_value_inUnit hn
  rw [sizeTenths_eq hn]
  exact Binary.le_scaled 1 (by norm_num; linarith)

theorem sizeTenths_le (hn : 1024 ≤ n) (hu : sizeUnit n ≠ .giga) : sizeTenths n ≤ 10240 := by
  have hle := value_inUnit_le hu
  rw [sizeTenths_eq hn]
  exact Binary.scaled_le 1 (by norm_num; linarith)

theorem sizeTenths_mono (hn : 1024 ≤ n) (h : n ≤ m) (hu : sizeUnit n = sizeUnit m) :
    sizeTenths n ≤ sizeTenths m := by
  rw [sizeTenths_eq hn, sizeTenths_eq (hn.trans h)]
  refine Binary.scaled_mono 1 ?_
  rw [value_inUnit, value_inUnit, hu]
  exact div_le_div_of_nonneg_right (Binary.value_ofNat_mono h) (Unit.size_pos _).le

/-! ## Reading a size -/

/-- A size as it is shown: so many of a unit. -/
structure Amount where
  number : ℚ
  unit : Unit
  deriving DecidableEq

namespace Amount

/-- How many bytes that is. -/
def bytes (a : Amount) : ℚ := a.number * a.unit.size

/-- The number that a decimal stands for. If there is a point, digits stand on both sides of it. -/
def decimal? (cs : List Char) : Option ℚ :=
  let whole := cs.takeWhile Char.isDigit
  if whole = [] then none
  else match cs.dropWhile Char.isDigit with
    | [] => some (Nat.ofDigitChars 10 whole 0)
    | point :: places =>
      if point = '.' ∧ places ≠ [] ∧ places.all Char.isDigit then
        some (Nat.ofDigitChars 10 whole 0 +
          Nat.ofDigitChars 10 places 0 / 10 ^ places.length)
      else none

/-- The size that a text shows: a decimal, a blank and the symbol of a unit. -/
def read? (text : String) : Option Amount := do
  let number ← decimal? (text.toList.takeWhile (· ≠ ' '))
  let unit ← Unit.all.find? fun u => text.toList.dropWhile (· ≠ ' ') = ' ' :: u.symbol.toList
  return ⟨number, unit⟩

theorem isDigit_of_mem {c : Char} (h : c ∈ Nat.toDigits 10 n) : c.isDigit = true :=
  Nat.isDigit_of_mem_toDigits (by decide) (by decide) h

theorem decimal?_toDigits (n : Nat) : decimal? (Nat.toDigits 10 n) = some (n : ℚ) := by
  have hall : ∀ c ∈ Nat.toDigits 10 n, c.isDigit = true := fun c => isDigit_of_mem
  unfold decimal?
  rw [List.takeWhile_eq_self_iff.mpr hall, List.dropWhile_eq_nil_iff.mpr hall,
    if_neg Nat.toDigits_ne_nil, Nat.ofDigitChars_ten_toDigits]

/-- A decimal with one place is read as so many tenths. -/
theorem decimal?_tenths (whole : Nat) {tenth : Nat} (h : tenth < 10) :
    decimal? (Nat.toDigits 10 whole ++ '.' :: Nat.toDigits 10 tenth) =
      some (whole + tenth / 10 : ℚ) := by
  have hall : ∀ c ∈ Nat.toDigits 10 whole, c.isDigit = true := fun c => isDigit_of_mem
  have hplaces : (Nat.toDigits 10 tenth).all Char.isDigit = true :=
    List.all_eq_true.mpr fun c => isDigit_of_mem
  have hlength : (Nat.toDigits 10 tenth).length = 1 := by rw [Nat.toDigits_of_lt_base h]; rfl
  have hpoint : Char.isDigit '.' = false := by decide
  unfold decimal?
  simp only [List.takeWhile_append_of_pos hall, List.dropWhile_append_of_pos hall,
    List.takeWhile_cons, List.dropWhile_cons, hpoint, Bool.false_eq_true, if_false,
    List.append_nil, Nat.toDigits_ne_nil, ne_eq, not_false_iff, hplaces, hlength, and_self, if_true,
    Nat.ofDigitChars_ten_toDigits, pow_one]

/-- A text is read as the number in front of the blank and the unit behind it. -/
theorem read?_eq {number : List Char} {x : ℚ} (u : Unit) (hnumber : decimal? number = some x)
    (hblank : ∀ c ∈ number, c ≠ ' ') :
    read? (String.ofList (number ++ ' ' :: u.symbol.toList)) = some ⟨x, u⟩ := by
  have hall : ∀ c ∈ number, decide (c ≠ ' ') = true := fun c hc => decide_eq_true (hblank c hc)
  have hunit : Unit.all.find? (fun v => ' ' :: u.symbol.toList = ' ' :: v.symbol.toList) =
      some u := by
    cases u <;> decide
  unfold read?
  simp only [String.toList_ofList, List.takeWhile_append_of_pos hall,
    List.dropWhile_append_of_pos hall, List.takeWhile_cons, List.dropWhile_cons, ne_eq,
    not_true, decide_false, Bool.false_eq_true, if_false, List.append_nil, hnumber, hunit]
  rfl

/-- The text of a size is read as the number and the unit that are shown. -/
theorem read?_formatBytes (n : Nat) :
    read? (formatBytes n) = some ⟨sizeTenths n / 10, sizeUnit n⟩ := by
  have hdigit {k : Nat} : ∀ c ∈ Nat.toDigits 10 k, c ≠ ' ' := by
    rintro c hc rfl
    have := isDigit_of_mem hc
    contradiction
  by_cases hn : n < 1024
  · have htext : formatBytes n =
        String.ofList (Nat.toDigits 10 n ++ ' ' :: Unit.bytes.symbol.toList) := by
      apply String.toList_inj.mp
      rw [formatBytes, if_pos hn, String.toList_ofList]
      simp [toString, Unit.symbol]
    have htenths : (sizeTenths n : ℚ) / 10 = n := by
      rw [sizeTenths, if_pos hn]
      push_cast
      ring
    rw [htext, read?_eq .bytes (decimal?_toDigits n) hdigit, htenths,
      sizeUnit_eq_bytes_iff.mpr hn]
  · have hplace : sizeTenths n % 10 < 10 := Nat.mod_lt _ (by decide)
    have hlength : (Nat.toDigits 10 (sizeTenths n % 10)).length = 1 := by
      rw [Nat.toDigits_of_lt_base hplace]
      rfl
    have htext : formatBytes n = String.ofList ((Nat.toDigits 10 (sizeTenths n / 10) ++
        '.' :: Nat.toDigits 10 (sizeTenths n % 10)) ++ ' ' :: (sizeUnit n).symbol.toList) := by
      apply String.toList_inj.mp
      rw [formatBytes, if_neg hn, String.toList_ofList, fixedPoint]
      simp [toString, hlength, Nat.pow_eq]
    have hvalue : ((sizeTenths n / 10 : Nat) + (sizeTenths n % 10 : Nat) / 10 : ℚ) =
        sizeTenths n / 10 := by
      have hsplit : 10 * (sizeTenths n / 10) + sizeTenths n % 10 = sizeTenths n :=
        Nat.div_add_mod _ 10
      rw [eq_div_iff (by norm_num)]
      conv_rhs => rw [← hsplit]
      push_cast
      ring
    rw [htext, read?_eq _ (decimal?_tenths _ hplace), hvalue]
    intro c hc
    rcases List.mem_append.mp hc with hc | hc
    · exact hdigit c hc
    · rcases List.mem_cons.mp hc with rfl | hc
      · decide
      · exact hdigit c hc

end Amount

/-- What is shown of a size. -/
def shown (n : Nat) : Amount := ⟨sizeTenths n / 10, sizeUnit n⟩

theorem bytes_shown_of_lt (hn : n < 1024) : (shown n).bytes = n := by
  have hsize : (Unit.bytes.size : ℚ) = 1 := by norm_num [Unit.size, Unit.power]
  rw [Amount.bytes, shown, sizeUnit_eq_bytes_iff.mpr hn, hsize, sizeTenths, if_pos hn]
  push_cast
  ring

/-- A size of at most 53 bits is off by half a decimal at most. -/
theorem abs_bytes_shown_sub_le (hn : n < 2 ^ 53) :
    |(shown n).bytes - n| ≤ (sizeUnit n).size / 20 := by
  have hsize := Unit.size_pos (sizeUnit n)
  by_cases hsmall : n < 1024
  · rw [bytes_shown_of_lt hsmall, sub_self, abs_zero]
    positivity
  · have hround := Binary.abs_scaled_sub_le (inUnit n) 1
    rw [← sizeTenths_eq (by omega), value_inUnit, Binary.value_ofNat_of_lt hn] at hround
    have hoff : (shown n).bytes - n =
        ((sizeTenths n : ℚ) - n / (sizeUnit n).size * 10 ^ 1) * ((sizeUnit n).size / 10) := by
      rw [Amount.bytes, shown]
      field_simp
    have htenth : (0 : ℚ) < (sizeUnit n).size / 10 := div_pos hsize (by norm_num)
    rw [hoff, abs_mul, abs_of_pos htenth]
    calc _ ≤ 1 / 2 * ((sizeUnit n).size / 10 : ℚ) := mul_le_mul_of_nonneg_right hround htenth.le
      _ = (sizeUnit n).size / 20 := by ring

/-- From 1024 bytes on at least one unit is shown. -/
theorem size_le_bytes_shown (hn : 1024 ≤ n) : ((sizeUnit n).size : ℚ) ≤ (shown n).bytes := by
  have hten : (10 : ℚ) ≤ sizeTenths n := by exact_mod_cast ten_le_sizeTenths hn
  have hone : (1 : ℚ) ≤ sizeTenths n / 10 := by linarith
  exact le_mul_of_one_le_left (Unit.size_pos _).le hone

/-- Where there is a larger unit, at most that is shown. -/
theorem bytes_shown_le (hn : 1024 ≤ n) (hu : sizeUnit n ≠ .giga) :
    (shown n).bytes ≤ 1024 * (sizeUnit n).size := by
  have hle : (sizeTenths n : ℚ) ≤ 10240 := by exact_mod_cast sizeTenths_le hn hu
  have hnumber : (sizeTenths n : ℚ) / 10 ≤ 1024 := by linarith
  exact mul_le_mul_of_nonneg_right hnumber (Unit.size_pos _).le

/-- A larger size does not show as less. -/
theorem bytes_shown_mono (h : n ≤ m) : (shown n).bytes ≤ (shown m).bytes := by
  by_cases hm : m < 1024
  · rw [bytes_shown_of_lt hm, bytes_shown_of_lt (by omega)]
    exact_mod_cast h
  have hone := size_le_bytes_shown (Nat.le_of_not_lt hm)
  by_cases hn : n < 1024
  · have hkilo : Unit.kilo.size ≤ (sizeUnit m).size :=
      size_le_size_sizeUnit (show 1024 ≤ m by omega)
    rw [bytes_shown_of_lt hn]
    refine le_trans ?_ hone
    exact_mod_cast hn.le.trans hkilo
  have hn : 1024 ≤ n := Nat.le_of_not_lt hn
  by_cases hunit : sizeUnit n = sizeUnit m
  · have htenths : (sizeTenths n : ℚ) ≤ sizeTenths m := by exact_mod_cast sizeTenths_mono hn h hunit
    rw [Amount.bytes, Amount.bytes, shown, shown, hunit]
    exact mul_le_mul_of_nonneg_right (by linarith) (Unit.size_pos _).le
  · -- the unit of the larger size is at least the next one
    have hreach : (sizeUnit n).size ≤ (sizeUnit m).size :=
      size_le_size_sizeUnit ((size_sizeUnit_le hn).trans h)
    have hnext : sizeUnit n ≠ .giga ∧ 1024 * (sizeUnit n).size ≤ (sizeUnit m).size := by
      revert hunit hreach
      cases sizeUnit n <;> cases sizeUnit m <;> decide
    calc (shown n).bytes ≤ 1024 * (sizeUnit n).size := bytes_shown_le hn hnext.1
      _ ≤ (sizeUnit m).size := by exact_mod_cast hnext.2
      _ ≤ (shown m).bytes := hone

/-- **Sizes are shown faithfully, and in their order.** The text of a size is a decimal with a unit.
The unit is the largest one that the size reaches, and bytes below 1024. What the text stands for is
the size itself where the unit is bytes, and off by a twentieth of the unit at most where the size
has no more than 53 bits; whatever bits it has, no larger size stands for less. -/
theorem formatBytes_faithful (n : Nat) : ∃ a, Amount.read? (formatBytes n) = some a ∧
    (n < 1024 → a.unit = .bytes) ∧ (1024 ≤ n → a.unit.size ≤ n) ∧
    (∀ u : Unit, u.size ≤ n → u.size ≤ a.unit.size) ∧
    (a.unit = .bytes → a.bytes = n) ∧ (n < 2 ^ 53 → |a.bytes - n| ≤ a.unit.size / 20) ∧
    ∀ m, n ≤ m → ∃ a', Amount.read? (formatBytes m) = some a' ∧ a.bytes ≤ a'.bytes := by
  refine ⟨shown n, Amount.read?_formatBytes n, sizeUnit_eq_bytes_iff.mpr, size_sizeUnit_le,
    fun _ => size_le_size_sizeUnit, fun hunit => ?_, abs_bytes_shown_sub_le, fun m h => ?_⟩
  · exact bytes_shown_of_lt (sizeUnit_eq_bytes_iff.mp hunit)
  · exact ⟨shown m, Amount.read?_formatBytes m, bytes_shown_mono h⟩

/-- The theorem at a size below all units, and across a change of units where the decimal is
carried. -/
theorem formatBytes_faithful_carried :
    (∃ a, Amount.read? (formatBytes 1000) = some a ∧ a.unit = .bytes ∧ a.bytes = 1000) ∧
    ∃ a a', Amount.read? (formatBytes 1048575) = some a ∧
      Amount.read? (formatBytes 1048576) = some a' ∧
      a.unit.size ≤ 1048575 ∧ Unit.kilo.size ≤ a.unit.size ∧
      |a.bytes - 1048575| ≤ a.unit.size / 20 ∧ a.bytes ≤ a'.bytes := by
  obtain ⟨small, hsmall, hbytes, -, -, hexact, -⟩ := formatBytes_faithful 1000
  obtain ⟨a, ha, -, hreached, hlargest, -, hnear, hmono⟩ := formatBytes_faithful 1048575
  obtain ⟨a', ha', hle⟩ := hmono 1048576 (by decide)
  refine ⟨⟨small, hsmall, hbytes (by decide), mod_cast hexact (hbytes (by decide))⟩,
    a, a', ha, ha', hreached (by decide), hlargest .kilo (by decide), ?_, hle⟩
  exact_mod_cast hnear (by decide)

/-! ## Where the decimal is carried -/

/-- **A size may be shown as 1024.0 of a unit though there is a larger one.** In kilobytes and
megabytes the number is at least 1 and at most 1024. It is less than 1024 exactly for the sizes that
are nearer to 1023.9 units: the unit goes by the size, and not by the decimal that is shown. -/
theorem formatBytes_number_lt_iff {a : Amount} (h : Amount.read? (formatBytes n) = some a)
    (hu : a.unit = .kilo ∨ a.unit = .mega) :
    1 ≤ a.number ∧ a.number ≤ 1024 ∧ (a.number < 1024 ↔ 20 * n < 20479 * a.unit.size) := by
  obtain rfl : shown n = a := Option.some.inj ((Amount.read?_formatBytes n).symm.trans h)
  have hbytes : sizeUnit n ≠ .bytes := by
    rintro hb
    simp [shown, hb] at hu
  have hgiga : sizeUnit n ≠ .giga := by
    rintro hg
    simp [shown, hg] at hu
  have hn : 1024 ≤ n := Nat.le_of_not_lt (mt sizeUnit_eq_bytes_iff.mpr hbytes)
  have hlow : (10 : ℚ) ≤ sizeTenths n := by exact_mod_cast ten_le_sizeTenths hn
  have hhigh : (sizeTenths n : ℚ) ≤ 10240 := by exact_mod_cast sizeTenths_le hn hgiga
  refine ⟨show (1 : ℚ) ≤ sizeTenths n / 10 by linarith,
    show (sizeTenths n : ℚ) / 10 ≤ 1024 by linarith, ?_⟩
  calc (shown n).number < 1024 ↔ (sizeTenths n : ℚ) < (10240 : Nat) := by
        rw [shown, div_lt_iff₀ (by norm_num)]
        norm_num
    _ ↔ (inUnit n).scaled 1 < 10240 := by rw [sizeTenths_eq hn, Nat.cast_lt]
    _ ↔ 2 * ((inUnit n).value * 10 ^ 1) + 1 < 2 * (10240 : Nat) :=
        Binary.scaled_lt_iff 1 (by decide)
    _ ↔ (n / (sizeUnit n).size : ℚ) < 20479 / 20 := by
        rw [value_inUnit, Binary.value_ofNat_of_lt (lt_of_sizeUnit_ne hgiga)]
        constructor <;> intro h <;> norm_num at h ⊢ <;> linarith
    _ ↔ 20 * n < 20479 * (sizeUnit n).size := by
        rw [div_lt_div_iff₀ (Unit.size_pos _) (by norm_num), mul_comm]
        exact_mod_cast Iff.rfl

/-- The theorem on both sides of the first size that is carried. -/
theorem formatBytes_number_lt_iff_around :
    (∃ a, Amount.read? (formatBytes 1048524) = some a ∧ a.unit = .kilo ∧
      1 ≤ a.number ∧ a.number < 1024) ∧
    ∃ a, Amount.read? (formatBytes 1048525) = some a ∧ a.unit = .kilo ∧
      a.number ≤ 1024 ∧ ¬ a.number < 1024 := by
  have hbefore : Amount.read? (formatBytes 1048524) = some ⟨10239 / 10, .kilo⟩ := by decide +kernel
  have hafter : Amount.read? (formatBytes 1048525) = some ⟨1024, .kilo⟩ := by decide +kernel
  obtain ⟨hone, -, hlt⟩ := formatBytes_number_lt_iff hbefore (Or.inl rfl)
  obtain ⟨-, hle, hcarried⟩ := formatBytes_number_lt_iff hafter (Or.inl rfl)
  exact ⟨⟨_, hbefore, rfl, hone, hlt.mpr (by decide)⟩,
    _, hafter, rfl, hle, mt hcarried.mp (by decide)⟩

/-- One byte below a megabyte the decimal is carried, and the unit is not. -/
theorem formatBytes_carried : formatBytes 1048575 = "1024.0 KB" ∧
    ¬ ∀ (n : Nat) (a : Amount), 1024 ≤ n → n < 2 ^ 64 →
      Amount.read? (formatBytes n) = some a → a.unit = .kilo ∨ a.unit = .mega →
      1 ≤ a.number ∧ a.number < 1024 := by
  have htext : formatBytes 1048575 = "1024.0 KB" := by decide +kernel
  have hread : Amount.read? (formatBytes 1048575) = some ⟨1024, .kilo⟩ := by decide +kernel
  refine ⟨htext, fun h => ?_⟩
  obtain ⟨-, hlt⟩ := h 1048575 ⟨1024, .kilo⟩ (by decide) (by decide) hread (Or.inl rfl)
  exact absurd hlt (by norm_num)

end Zipship.Display
