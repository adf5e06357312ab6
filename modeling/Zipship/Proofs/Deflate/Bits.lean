import Mathlib.Tactic.Ring
import Mathlib.Tactic.SplitIfs
import Zipship.Deflate.Bits

/-!
# What bits are written and read

`numberBits` are the bits of a number, the lowest first. What a function writes is a list of bits
behind those that were written before (`Writes`), and what a function reads is a list of bits in
front of those that are left (`Reads`): the two sides of a format meet in the list.
-/

namespace Zipship.Deflate

/-- The low `count` bits of a number, the lowest first. -/
def numberBits : Nat → Nat → List Nat
  | 0, _ => []
  | count + 1, n => n % 2 :: numberBits count (n / 2)

/-- The bits of a code, the highest first. -/
def codeBits (count code : Nat) : List Nat := (numberBits count code).reverse

/-- The bits of some bytes. -/
def bytesBits (b : Bytes) : List Nat := b.flatMap fun x => numberBits 8 x.toNat

/-! ## The bits of a number -/

@[simp] theorem length_numberBits (count n : Nat) : (numberBits count n).length = count := by
  induction count generalizing n with
  | zero => rfl
  | succ count ih => rw [numberBits, List.length_cons, ih]

@[simp] theorem length_codeBits (count code : Nat) : (codeBits count code).length = count := by
  rw [codeBits, List.length_reverse, length_numberBits]

theorem length_bytesBits (b : Bytes) : (bytesBits b).length = 8 * b.length := by
  induction b with
  | nil => rfl
  | cons x b ih =>
    rw [bytesBits, List.flatMap_cons, List.length_append, length_numberBits, List.length_cons,
      Nat.mul_add_one, Nat.add_comm]
    exact congrArg (· + 8) ih

theorem numberBits_add (a b n : Nat) :
    numberBits (a + b) n = numberBits a n ++ numberBits b (n / 2 ^ a) := by
  induction a generalizing n with
  | zero => simp [numberBits]
  | succ a ih =>
    rw [Nat.add_right_comm, numberBits, ih, numberBits, Nat.div_div_eq_div_mul, ← Nat.pow_succ',
      List.cons_append]

theorem numberBits_mod (count n : Nat) : numberBits count (n % 2 ^ count) = numberBits count n := by
  induction count generalizing n with
  | zero => rfl
  | succ count ih =>
    have hlow : n % 2 ^ (count + 1) % 2 = n % 2 := Nat.mod_mod_of_dvd n (dvd_pow_self 2 (by simp))
    have hhigh : n % 2 ^ (count + 1) / 2 = n / 2 % 2 ^ count := by
      rw [Nat.pow_succ', Nat.mod_mul_right_div_self]
    rw [numberBits, numberBits, hlow, hhigh, ih]

/-- The bits of a number above another one are behind the bits of the other one. -/
theorem numberBits_above {a low : Nat} (hlow : low < 2 ^ a) (b high : Nat) :
    numberBits (a + b) (low + high * 2 ^ a) = numberBits a low ++ numberBits b high := by
  have hdiv : (low + high * 2 ^ a) / 2 ^ a = high := by
    rw [Nat.add_mul_div_right _ _ (Nat.two_pow_pos a), Nat.div_eq_of_lt hlow, Nat.zero_add]
  rw [numberBits_add, hdiv, ← numberBits_mod a, Nat.add_mul_mod_self_right, numberBits_mod]

theorem numberBits_zero (count : Nat) : numberBits count 0 = List.replicate count 0 := by
  induction count with
  | zero => rfl
  | succ count ih => rw [numberBits, Nat.zero_div, ih, List.replicate_succ]

theorem getElem?_numberBits {count i : Nat} (hi : i < count) (n : Nat) :
    (numberBits count n)[i]? = some (n >>> i % 2) := by
  induction i generalizing count n with
  | zero =>
    obtain ⟨count, rfl⟩ := Nat.exists_eq_add_of_lt hi
    simp [numberBits]
  | succ i ih =>
    obtain ⟨count, rfl⟩ := Nat.exists_eq_add_of_le' (Nat.one_le_of_lt hi)
    rw [numberBits, List.getElem?_cons_succ, ih (by omega), Nat.shiftRight_eq_div_pow,
      Nat.shiftRight_eq_div_pow, Nat.div_div_eq_div_mul, ← Nat.pow_succ']

/-- The highest bit of a code comes first. -/
theorem codeBits_succ (count code : Nat) :
    codeBits (count + 1) code = code / 2 ^ count % 2 :: codeBits count code := by
  rw [codeBits, numberBits_add, List.reverse_append]
  rfl

/-! ## Writing -/

namespace BitWriter

variable {w : BitWriter}

/-- All that was written, bit by bit. -/
def bits (w : BitWriter) : List Nat := bytesBits w.bytes.toList ++ numberBits w.count w.pending

/-- Fewer bits than a byte has are pending, and nothing else is. -/
structure Sound (w : BitWriter) : Prop where
  count_lt : w.count < 8
  pending_lt : w.pending < 2 ^ w.count

theorem sound_empty : empty.Sound := ⟨by decide, by decide⟩

theorem bits_empty : empty.bits = [] := rfl

/-- Moving a full byte out of the pending bits keeps the bits. -/
theorem bits_push (bytes : Array UInt8) (pending count : Nat) :
    bits ⟨bytes.push (UInt8.ofNat pending), pending / 256, count⟩ =
      bits ⟨bytes, pending, 8 + count⟩ := by
  have hbyte : numberBits 8 (UInt8.ofNat pending).toNat = numberBits 8 pending := by
    rw [UInt8.toNat_ofNat']
    exact numberBits_mod 8 pending
  simp only [bits, bytesBits, Array.toList_push, List.flatMap_append, List.flatMap_singleton,
    List.append_assoc, hbyte, numberBits_add 8 count]
  rfl

theorem flushFull_spec (fuel : Nat) (w : BitWriter) (hfuel : w.count < 8 * (fuel + 1))
    (hpending : w.pending < 2 ^ w.count) :
    (flushFull fuel w).Sound ∧ (flushFull fuel w).bits = w.bits := by
  induction fuel generalizing w with
  | zero => exact ⟨⟨by rw [flushFull]; omega, hpending⟩, rfl⟩
  | succ fuel ih =>
    rw [flushFull]
    split_ifs with hfew
    · exact ⟨⟨hfew, hpending⟩, rfl⟩
    · obtain ⟨bytes, pending, count⟩ := w
      obtain ⟨more, rfl⟩ := Nat.exists_eq_add_of_le (Nat.le_of_not_lt hfew)
      have hless : pending / 256 < 2 ^ more := by
        rw [Nat.div_lt_iff_lt_mul (by decide), Nat.mul_comm, show 256 = 2 ^ 8 from rfl,
          ← Nat.pow_add]
        exact hpending
      rw [← bits_push bytes pending more]
      simp only [Nat.add_sub_cancel_left] at hfuel hless ⊢
      exact ih _ (by simp only; omega) hless

/-- The function writes the bits behind what was written before. -/
def Writes (write : BitWriter → BitWriter) (bs : List Nat) : Prop :=
  ∀ w : BitWriter, w.Sound → (write w).Sound ∧ (write w).bits = w.bits ++ bs

theorem writes_nothing : Writes (fun w => w) [] := fun _ h => ⟨h, (List.append_nil _).symm⟩

theorem Writes.next {f g : BitWriter → BitWriter} {bs cs : List Nat} (hf : Writes f bs)
    (hg : Writes g cs) : Writes (fun w => g (f w)) (bs ++ cs) := by
  intro w hw
  obtain ⟨hsound, hbits⟩ := hf w hw
  obtain ⟨hsound', hbits'⟩ := hg _ hsound
  exact ⟨hsound', by rw [hbits', hbits, List.append_assoc]⟩

theorem writes_foldl {α : Type} {write : BitWriter → α → BitWriter} {bs : α → List Nat}
    {l : List α} (h : ∀ a ∈ l, Writes (write · a) (bs a)) :
    Writes (fun w => l.foldl write w) (l.flatMap bs) := by
  induction l with
  | nil => exact writes_nothing
  | cons a l ih =>
    rw [List.flatMap_cons]
    exact (h a List.mem_cons_self).next (ih fun b hb => h b (List.mem_cons_of_mem _ hb))

theorem writes_put (n count : Nat) : Writes (·.put n count) (numberBits count n) := by
  intro w hw
  obtain ⟨bytes, pending, present⟩ := w
  obtain ⟨hcount, hpending⟩ := hw
  have hlow : n % 2 ^ count < 2 ^ count := Nat.mod_lt _ (Nat.two_pow_pos count)
  have hall : pending + n % 2 ^ count * 2 ^ present < 2 ^ (present + count) := by
    rw [Nat.pow_add, Nat.mul_comm (2 ^ present)]
    calc pending + n % 2 ^ count * 2 ^ present < (n % 2 ^ count + 1) * 2 ^ present := by
          rw [Nat.add_mul, Nat.one_mul, Nat.add_comm]
          exact Nat.add_lt_add_left hpending _
      _ ≤ 2 ^ count * 2 ^ present := Nat.mul_le_mul_right _ hlow
  obtain ⟨hsound, hbits⟩ := flushFull_spec (count / 8 + 1)
    ⟨bytes, pending + n % 2 ^ count * 2 ^ present, present + count⟩
    (by simp only at hcount ⊢; omega) hall
  refine ⟨hsound, hbits.trans ?_⟩
  simp only [bits, numberBits_above hpending, numberBits_mod, List.append_assoc]

/-- Reversing bits puts them above those that are reversed already. -/
theorem numberBits_reverseBits (count n more acc : Nat) :
    numberBits (count + more) (reverseBits count n acc) =
      codeBits count n ++ numberBits more acc := by
  induction count generalizing n more acc with
  | zero => simp [reverseBits, codeBits, numberBits]
  | succ count ih =>
    have hbit : (2 * acc + n % 2) % 2 = n % 2 := by omega
    have hrest : (2 * acc + n % 2) / 2 = acc := by omega
    rw [reverseBits, Nat.add_right_comm, Nat.add_assoc, ih, numberBits, hbit, hrest, codeBits,
      codeBits, numberBits, List.reverse_cons, List.append_assoc, List.singleton_append]

theorem writes_putCode (code count : Nat) :
    Writes (·.putCode code count) (codeBits count code) := by
  have hbits := numberBits_reverseBits count code 0 0
  rw [Nat.add_zero, numberBits, List.append_nil] at hbits
  rw [← hbits]
  exact writes_put _ _

/-- Filling the last byte adds zeros, up to a whole number of bytes. -/
theorem bits_align (hw : w.Sound) : w.align.Sound ∧ w.align.count = 0 ∧
    w.align.bits = w.bits ++ List.replicate ((8 - w.count) % 8) 0 := by
  obtain ⟨bytes, pending, count⟩ := w
  obtain ⟨hcount, hpending⟩ := hw
  simp only at hcount hpending
  unfold align
  split_ifs with hnone
  · simp only at hnone
    subst hnone
    exact ⟨⟨hcount, hpending⟩, rfl, by simp⟩
  · simp only at hnone
    refine ⟨⟨Nat.zero_lt_succ 7, Nat.zero_lt_one⟩, rfl, ?_⟩
    have hdone : pending / 256 = 0 := Nat.div_eq_of_lt
      (Nat.lt_of_lt_of_le hpending (Nat.pow_le_pow_right (by decide) (Nat.le_of_lt hcount)))
    have hpush := bits_push bytes pending 0
    have hfill := numberBits_above hpending (8 - count) 0
    rw [hdone] at hpush
    rw [Nat.zero_mul, Nat.add_zero, Nat.add_sub_cancel' (Nat.le_of_lt hcount),
      numberBits_zero] at hfill
    have hfew : (8 - count) % 8 = 8 - count := by omega
    rw [hpush]
    simp only [bits, Nat.add_zero, hfill, hfew, List.append_assoc]

/-- What is written from the next byte on stands behind the zeros that fill the last one. -/
theorem bits_putBytes (hw : w.Sound) (b : Array UInt8) : (w.putBytes b).Sound ∧
    (w.putBytes b).count = 0 ∧ (w.putBytes b).bits =
      w.bits ++ (List.replicate ((8 - w.count) % 8) 0 ++ bytesBits b.toList) := by
  obtain ⟨⟨hcount, hpending⟩, hzero, hbits⟩ := bits_align hw
  unfold putBytes
  refine ⟨⟨hcount, hpending⟩, hzero, ?_⟩
  rw [← List.append_assoc, ← hbits]
  simp only [bits, hzero, numberBits, List.append_nil, bytesBits, Array.toList_append,
    List.flatMap_append]

theorem bits_toBytes (hw : w.Sound) :
    bytesBits w.toBytes = w.bits ++ List.replicate ((8 - w.count) % 8) 0 := by
  obtain ⟨-, hzero, hbits⟩ := bits_align hw
  rw [← hbits]
  simp only [toBytes, bits, hzero, numberBits, List.append_nil]

/-- How many bits are pending follows from how many there are. -/
theorem length_bits_mod (hw : w.Sound) : w.bits.length % 8 = w.count := by
  rw [bits, List.length_append, length_bytesBits, length_numberBits, Nat.mul_add_mod]
  exact Nat.mod_eq_of_lt hw.count_lt

end BitWriter

/-! ## Reading -/

namespace BitReader

variable {r : BitReader} {bs tail : List Nat}

/-- The bits that are not read yet. -/
def rest (r : BitReader) : List Nat := (bytesBits r.bytes.toList).drop r.pos

/-- The reader behind some more bits. -/
def skip (r : BitReader) (count : Nat) : BitReader := { r with pos := r.pos + count }

@[simp] theorem skip_zero (r : BitReader) : r.skip 0 = r := rfl

@[simp] theorem skip_skip (r : BitReader) (a b : Nat) : (r.skip a).skip b = r.skip (a + b) := by
  simp only [skip, Nat.add_assoc]

@[simp] theorem bytes_skip (r : BitReader) (count : Nat) : (r.skip count).bytes = r.bytes := rfl

theorem rest_skip (h : r.rest = bs ++ tail) : (r.skip bs.length).rest = tail := by
  unfold rest at h
  rw [rest, skip, ← List.drop_drop, h, List.drop_left]

theorem rest_skip_one {b : Nat} (h : r.rest = b :: tail) : (r.skip 1).rest = tail :=
  rest_skip (show r.rest = [b] ++ tail from h)

theorem length_rest_le (r : BitReader) : r.rest.length ≤ 8 * r.bytes.size := by
  rw [rest, List.length_drop, length_bytesBits, Array.length_toList]
  omega

theorem getElem?_bytesBits (b : Bytes) (pos : Nat) :
    (bytesBits b)[pos]? = b[pos / 8]?.map fun x => x.toNat >>> (pos % 8) % 2 := by
  induction b generalizing pos with
  | nil => simp [bytesBits]
  | cons x b ih =>
    rw [bytesBits, List.flatMap_cons]
    rcases Nat.lt_or_ge pos 8 with hpos | hpos
    · rw [List.getElem?_append_left (by simpa using hpos), getElem?_numberBits hpos,
        Nat.div_eq_of_lt hpos, Nat.mod_eq_of_lt hpos]
      rfl
    · obtain ⟨more, rfl⟩ := Nat.exists_eq_add_of_le hpos
      rw [List.getElem?_append_right (by simp), length_numberBits, Nat.add_sub_cancel_left,
        Nat.add_div_left _ (by decide), Nat.add_mod_left, List.getElem?_cons_succ]
      exact ih more

/-- The next bit is the first of those that are left. -/
theorem bit?_eq {b : Nat} (h : r.rest = b :: tail) : r.bit? = some (b, r.skip 1) := by
  have hnext : (bytesBits r.bytes.toList)[r.pos]? = some b := by
    rw [← List.head?_drop]
    exact congrArg List.head? h
  rw [getElem?_bytesBits, Option.map_eq_some_iff] at hnext
  obtain ⟨x, hx, hb⟩ := hnext
  rw [Array.getElem?_toList] at hx
  obtain ⟨hlt, rfl⟩ := Array.getElem?_eq_some_iff.mp hx
  rw [bit?, dif_pos hlt, hb]
  rfl

/-- The function takes the bits from the front of those that are left and gives `a` for them. -/
def Reads {α : Type} (read : BitReader → Option (α × BitReader)) (bs : List Nat) (a : α) : Prop :=
  ∀ (r : BitReader) (tail : List Nat), r.rest = bs ++ tail → read r = some (a, r.skip bs.length)

/-- A number that fits is read as it was written. -/
theorem number?_eq {n count : Nat} (hn : n < 2 ^ count) (h : r.rest = numberBits count n ++ tail) :
    r.number? count = some (n, r.skip count) := by
  induction count generalizing n r with
  | zero =>
    have hzero : n = 0 := by simpa using hn
    rw [number?, hzero, skip_zero]
  | succ count ih =>
    rw [numberBits, List.cons_append] at h
    have hhalf : n / 2 < 2 ^ count := Nat.div_lt_of_lt_mul (by rwa [Nat.pow_succ'] at hn)
    have hhigh := ih hhalf (rest_skip_one h)
    have hsum : n % 2 + 2 * (n / 2) = n := Nat.mod_add_div n 2
    simp only [number?, bit?_eq h, Option.bind_eq_bind, Option.bind_some, pure, skip_skip,
      Nat.add_comm count 1] at hhigh ⊢
    rw [hhigh]
    simp only [Option.bind_some, hsum]

theorem numbers?_eq {count : Nat} {l : List Nat} (hl : ∀ n ∈ l, n < 2 ^ count)
    (h : r.rest = l.flatMap (numberBits count) ++ tail) :
    r.numbers? count l.length = some (l, r.skip (l.flatMap (numberBits count)).length) := by
  induction l generalizing r with
  | nil => rfl
  | cons n l ih =>
    rw [List.flatMap_cons, List.append_assoc] at h
    have hfirst := number?_eq (hl n List.mem_cons_self) h
    have hrest := rest_skip h
    rw [length_numberBits] at hrest
    simp only [List.length_cons, numbers?, hfirst, Option.bind_eq_bind, Option.bind_some, pure,
      ih (fun m hm => hl m (List.mem_cons_of_mem _ hm)) hrest, List.flatMap_cons,
      List.length_append, length_numberBits, skip_skip]

end BitReader

end Zipship.Deflate
