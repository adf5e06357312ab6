import Mathlib.Data.List.Basic
import Mathlib.Data.List.GetD
import Mathlib.Data.List.Induction
import Mathlib.Data.Nat.Find
import Mathlib.Data.Nat.Prime.Defs
import Mathlib.Tactic.Ring
import Zipship.Proofs.Digest.Sha256

/-!
# SHA-256 as the standard defines it

The standard speaks of strings of bits, not of bytes, and of each block as a whole. Here it is
written down in its own terms, beside the hasher, whose padding, blocks, rounds and tables it does
not use:

* a message is a string of bits, the high bit of each byte first (`bits`);
* it is padded with a set bit, as few clear bits as bring it 64 bits short of a block, and its
  length in 64 bits (`pad`);
* each block of 512 bits is sixteen words, and the words of all 64 rounds follow from them
  (`schedule`); a round changes eight working words (`round`), which are added to the hash value
  after the last round (`compress`);
* the words it starts from and the constants of the rounds are the first 32 bits behind the point
  of square and cube roots of primes (`initialWord`, `constant`);
* the digest is the eight words in a row (`digest`), and its text one digit for each four bits
  (`hexText`).

`toBitVec_constants` and `state_initial` say that the tables of the hasher are these roots.
-/

namespace Zipship.Digest

namespace Standard

/-! ## The definition -/

/-- A string of bits, the first one in front. -/
abbrev Bits := List Bool

/-- The bits of a byte string, the high bit of each byte first. -/
def bits (b : Bytes) : Bits :=
  b.flatMap fun x => (List.range 8).map fun i => x.toNat.testBit (7 - i)

/-- The number that a string of bits writes, the high bit first. -/
def number (m : Bits) : Nat := m.foldl (fun n b => 2 * n + b.toNat) 0

theorem exists_zeros (l : Nat) : ∃ k, (l + 1 + k) % 512 = 448 :=
  ⟨(447 + 512 - l % 512) % 512, by omega⟩

/-- How many clear bits follow the set bit behind a message of `l` bits: the smallest number that
leaves 64 bits of a block. -/
def zeros (l : Nat) : Nat := Nat.find (exists_zeros l)

/-- A message and what follows it. The standard ends below 2^64 bits; of a greater length the low
64 bits are written. -/
def pad (m : Bits) : Bits :=
  m ++ true :: List.replicate (zeros m.length) false ++
    (List.range 64).map fun i => m.length.testBit (63 - i)

/-- A padded message is a whole number of blocks. -/
theorem length_pad (m : Bits) : (pad m).length % 512 = 0 := by
  have hzeros : (m.length + 1 + zeros m.length) % 512 = 448 := Nat.find_spec (exists_zeros _)
  simp only [pad, List.length_append, List.length_cons, List.length_replicate, List.length_map,
    List.length_range]
  omega

abbrev Word := BitVec 32

/-- The word at the `j`-th place of a string of bits. -/
def word (m : Bits) (j : Nat) : Word := BitVec.ofNat 32 (number ((m.drop (32 * j)).take 32))

/-- `x` chooses between the bits of `y` and `z`. -/
def choose (x y z : Word) : Word := (x &&& y) ^^^ (~~~x &&& z)

/-- The bit that two of the three have. -/
def majority (x y z : Word) : Word := (x &&& y) ^^^ (x &&& z) ^^^ (y &&& z)

/-- A word turned to the right three times, added bit by bit. -/
def turns (i j k : Nat) (x : Word) : Word := x.rotateRight i ^^^ x.rotateRight j ^^^ x.rotateRight k

def bigSigma0 : Word → Word := turns 2 13 22

def bigSigma1 : Word → Word := turns 6 11 25

/-- A word turned twice and shifted once to the right, added bit by bit. -/
def turnsAndShift (i j k : Nat) (x : Word) : Word :=
  x.rotateRight i ^^^ x.rotateRight j ^^^ (x >>> k)

def smallSigma0 : Word → Word := turnsAndShift 7 18 3

def smallSigma1 : Word → Word := turnsAndShift 17 19 10

/-- The first sixty-four primes. -/
def primes : List Nat := (List.range 312).filter Nat.Prime

/-- The first 32 bits behind the point of the `k`-th root of `p`: the low word of the largest `n`
with `n ^ k ≤ p * 2 ^ (32 * k)`. -/
def rootFraction (k p : Nat) : Word :=
  BitVec.ofNat 32 (Nat.findGreatest (fun n => n ^ k ≤ p * 2 ^ (32 * k)) (p * 2 ^ (32 * k)))

/-- The constant of a round. -/
def constant (t : Nat) : Word := rootFraction 3 (primes.getD t 0)

/-- A word of the hash value before the first block. -/
def initialWord (i : Nat) : Word := rootFraction 2 (primes.getD i 0)

/-- The word of a round. -/
def schedule (block : Fin 16 → Word) (t : Nat) : Word :=
  if h : t < 16 then block ⟨t, h⟩
  else smallSigma1 (schedule block (t - 2)) + schedule block (t - 7) +
    smallSigma0 (schedule block (t - 15)) + schedule block (t - 16)

/-- The eight words of a hash value, and those that the rounds work on. -/
structure State where
  a : Word
  b : Word
  c : Word
  d : Word
  e : Word
  f : Word
  g : Word
  h : Word

/-- The hash value before the first block. -/
def State.initial : State :=
  ⟨initialWord 0, initialWord 1, initialWord 2, initialWord 3, initialWord 4, initialWord 5,
    initialWord 6, initialWord 7⟩

/-- Round `t`, where the words of the rounds are `w`. -/
def round (w : Nat → Word) (s : State) (t : Nat) : State :=
  let t₁ := s.h + bigSigma1 s.e + choose s.e s.f s.g + constant t + w t
  let t₂ := bigSigma0 s.a + majority s.a s.b s.c
  ⟨t₁ + t₂, s.a, s.b, s.c, s.d + t₁, s.e, s.f, s.g⟩

/-- The hash value after a block. -/
def compress (s : State) (block : Fin 16 → Word) : State :=
  let t := (List.range 64).foldl (round (schedule block)) s
  ⟨t.a + s.a, t.b + s.b, t.c + s.c, t.d + s.d, t.e + s.e, t.f + s.f, t.g + s.g, t.h + s.h⟩

/-- The hash value after all blocks of the padded message. -/
def hash (m : Bits) : State :=
  (List.range ((pad m).length / 512)).foldl
    (fun s i => compress s fun j => word (pad m) (16 * i + j)) .initial

/-- The bits of a word, the high bit first. -/
def wordBits (w : Word) : Bits := (List.range 32).map w.getMsbD

/-- The bits of a hash value. -/
def State.bits (s : State) : Bits :=
  [s.a, s.b, s.c, s.d, s.e, s.f, s.g, s.h].flatMap wordBits

/-- The digest of a message. -/
def digest (m : Bits) : Bits := (hash m).bits

/-- A string of bits in hexadecimal, one digit for each four bits. -/
def hexText : Bits → List Char
  | b₃ :: b₂ :: b₁ :: b₀ :: m => Nat.digitChar (number [b₃, b₂, b₁, b₀]) :: hexText m
  | _ => []

/-- The digest of a byte string in hexadecimal. -/
def text (content : Bytes) : String := String.ofList (hexText (digest (bits content)))

/-! ## Strings of bits -/

theorem bits_append (a b : Bytes) : bits (a ++ b) = bits a ++ bits b := List.flatMap_append

theorem bits_cons (x : UInt8) (b : Bytes) : bits (x :: b) = bits [x] ++ bits b :=
  bits_append [x] b

theorem length_bits (b : Bytes) : (bits b).length = 8 * b.length := by
  induction b with
  | nil => rfl
  | cons x b ih =>
    rw [bits_cons, List.length_append, ih, List.length_cons, Nat.mul_succ, Nat.add_comm]
    rfl

theorem eight_mul_succ (x : UInt8) (n : Nat) : 8 * (n + 1) = (bits [x]).length + 8 * n := by
  rw [length_bits, List.length_singleton]
  omega

theorem take_bits (n : Nat) (b : Bytes) : (bits b).take (8 * n) = bits (b.take n) := by
  induction n generalizing b with
  | zero => rfl
  | succ n ih =>
    cases b with
    | nil => rfl
    | cons x b =>
      rw [List.take_succ_cons, bits_cons, bits_cons x (b.take n), eight_mul_succ x,
        List.take_length_add_append, ih]

theorem drop_bits (n : Nat) (b : Bytes) : (bits b).drop (8 * n) = bits (b.drop n) := by
  induction n generalizing b with
  | zero => rfl
  | succ n ih =>
    cases b with
    | nil => rfl
    | cons x b =>
      rw [List.drop_succ_cons, bits_cons, eight_mul_succ x, List.drop_length_add_append, ih]

/-- A word of a message is written by four of its bytes. -/
theorem word_bits (b : Bytes) (j : Nat) :
    word (bits b) j = BitVec.ofNat 32 (number (bits ((b.drop (4 * j)).take 4))) := by
  have hdrop := drop_bits (4 * j) b
  rw [← Nat.mul_assoc] at hdrop
  rw [word, hdrop, take_bits 4]

theorem number_append (a b : Bits) : number (a ++ b) = number a * 2 ^ b.length + number b := by
  induction b using List.reverseRecOn with
  | nil => simp [number]
  | append_singleton b x ih =>
    have hsnoc (m : Bits) : number (m ++ [x]) = 2 * number m + x.toNat := by
      simp [number, List.foldl_append]
    rw [← List.append_assoc, hsnoc, hsnoc, ih, List.length_append, List.length_singleton, pow_succ]
    ring

theorem number_byte : ∀ n < 256, number ((List.range 8).map fun i => n.testBit (7 - i)) = n := by
  decide +kernel

theorem number_bits_cons (x : UInt8) (b : Bytes) :
    number (bits (x :: b)) = x.toNat * 256 ^ b.length + number (bits b) := by
  have hx : number (bits [x]) = x.toNat := by
    simpa [bits] using number_byte x.toNat x.toNat_lt
  rw [bits_cons, number_append, hx, length_bits, pow_mul]
  rfl

theorem map_range_mul {α : Type} (f : Nat → α) (n m : Nat) : (List.range (m * n)).map f =
    (List.range n).flatMap fun i => (List.range m).map fun j => f (m * i + j) := by
  induction n with
  | zero => rfl
  | succ n ih =>
    rw [Nat.mul_succ, List.range_add, List.map_append, ih, List.range_succ, List.flatMap_append,
      List.map_map]
    simp [Function.comp_def]

theorem testBit_digit (n k j : Nat) (hj : j < 8) :
    (UInt8.ofNat (n / Nat.pow 256 k)).toNat.testBit j = n.testBit (8 * k + j) := by
  have hpow : Nat.pow 256 k = 2 ^ (8 * k) := by
    rw [pow_mul]
    rfl
  rw [UInt8.toNat_ofNat', Nat.testBit_mod_two_pow, hpow, Nat.testBit_div_two_pow,
    decide_eq_true hj, Bool.true_and, Nat.add_comm]

/-- The bytes of a number, high byte first, have its bits, high bit first. -/
theorem bits_digits (n k : Nat) :
    bits ((List.range k).map fun i => UInt8.ofNat (n / Nat.pow 256 (k - 1 - i))) =
      (List.range (8 * k)).map fun i => n.testBit (8 * k - 1 - i) := by
  rw [bits, List.flatMap_map, map_range_mul (fun i => n.testBit (8 * k - 1 - i)) k 8]
  refine List.flatMap_congr fun i hi => List.map_congr_left fun j hj => ?_
  have hi' := List.mem_range.mp hi
  have hj' := List.mem_range.mp hj
  have hplace : 8 * (k - 1 - i) + (7 - j) = 8 * k - 1 - (8 * i + j) := by omega
  rw [testBit_digit n _ _ (by omega), hplace]

theorem bits_zeros (n : Nat) : bits (List.replicate n 0) = List.replicate (8 * n) false := by
  induction n with
  | zero => rfl
  | succ n ih =>
    rw [List.replicate_succ, bits_cons, ih, Nat.mul_succ, Nat.add_comm, List.replicate_add]
    rfl

/-! ## The tables are roots of primes -/

theorem rootFraction_eq {k p n : Nat} (hk : k ≠ 0) (hle : n ^ k ≤ p * 2 ^ (32 * k))
    (hlt : p * 2 ^ (32 * k) < (n + 1) ^ k) : rootFraction k p = BitVec.ofNat 32 n := by
  have hroot : Nat.findGreatest (fun n => n ^ k ≤ p * 2 ^ (32 * k)) (p * 2 ^ (32 * k)) = n := by
    rw [Nat.findGreatest_eq_iff]
    refine ⟨(Nat.le_self_pow hk n).trans hle, fun _ => hle, fun m hm _ hmk => ?_⟩
    exact absurd hmk (Nat.not_le.mpr (hlt.trans_le (Nat.pow_le_pow_left hm k)))
  rw [rootFraction, hroot]

/-- With some small number in front of the point, `w` behind it is the `k`-th root of `p` to 32
places. -/
def isRootFraction (k p : Nat) (w : UInt32) : Bool :=
  (List.range 32).any fun c =>
    (c * 2 ^ 32 + w.toNat) ^ k ≤ p * 2 ^ (32 * k) ∧
      p * 2 ^ (32 * k) < (c * 2 ^ 32 + w.toNat + 1) ^ k

theorem toBitVec_of_isRootFraction {k p : Nat} {w : UInt32} (hk : k ≠ 0)
    (h : isRootFraction k p w = true) : w.toBitVec = rootFraction k p := by
  obtain ⟨c, -, hc⟩ := List.any_eq_true.mp h
  obtain ⟨hle, hlt⟩ := of_decide_eq_true hc
  have hw := w.toNat_lt
  rw [rootFraction_eq hk hle hlt]
  apply BitVec.eq_of_toNat_eq
  rw [BitVec.toNat_ofNat]
  show w.toNat = _
  omega

/-- A number is prime if nothing up to its square root divides it, which is 17 here at most. -/
theorem prime_iff {n : Nat} (hn : n < 312) :
    n.Prime ↔ 2 ≤ n ∧ ∀ m < 18, 2 ≤ m → m * m ≤ n → ¬ m ∣ n := by
  rw [Nat.prime_def_le_sqrt]
  refine and_congr_right fun _ => ⟨fun h m _ hm hle => h m hm (Nat.le_sqrt.mpr hle), ?_⟩
  intro h m hm hle
  have hsquare := Nat.le_sqrt.mp hle
  have hlt : m < 18 := by
    by_contra hge
    have hlarge := Nat.mul_le_mul (Nat.not_lt.mp hge) (Nat.not_lt.mp hge)
    omega
  exact h m hlt hm hsquare

theorem primes_eq : primes =
    [2, 3, 5, 7, 11, 13, 17, 19, 23, 29, 31, 37, 41, 43, 47, 53, 59, 61, 67, 71, 73, 79, 83, 89, 97,
      101, 103, 107, 109, 113, 127, 131, 137, 139, 149, 151, 157, 163, 167, 173, 179, 181, 191,
      193, 197, 199, 211, 223, 227, 229, 233, 239, 241, 251, 257, 263, 269, 271, 277, 281, 283,
      293, 307, 311] := by
  have htrial : primes = (List.range 312).filter fun n =>
      2 ≤ n ∧ ∀ m < 18, 2 ≤ m → m * m ≤ n → ¬ m ∣ n :=
    List.filter_congr fun n hn => decide_eq_decide.mpr (prime_iff (List.mem_range.mp hn))
  rw [htrial]
  decide +kernel

theorem length_primes : primes.length = 64 := by
  rw [primes_eq]
  rfl

/-- Words that belong to the primes in turn. -/
theorem toBitVec_of_roots {k : Nat} {ws : List UInt32} (hk : k ≠ 0) (hws : ws.length ≤ 64)
    (hroots : ∀ q ∈ primes.zip ws, isRootFraction k q.1 q.2 = true) {t : Nat} (ht : t < ws.length) :
    ws[t].toBitVec = rootFraction k (primes.getD t 0) := by
  have hlen : t < (primes.zip ws).length := by
    rw [List.length_zip, length_primes]
    omega
  have hroot := hroots _ (List.getElem_mem hlen)
  rw [List.getElem_zip] at hroot
  rw [List.getD_eq_getElem _ _ (by rw [length_primes]; omega)]
  exact toBitVec_of_isRootFraction hk hroot

/-- The constants of the hasher are those of the standard. -/
theorem toBitVec_constants {t : Nat} (ht : t < Words.constants.length) :
    Words.constants[t].toBitVec = constant t := by
  have hroots : ∀ q ∈ primes.zip Words.constants, isRootFraction 3 q.1 q.2 = true := by
    rw [primes_eq]
    decide +kernel
  exact toBitVec_of_roots (by decide) (by decide) hroots ht

end Standard

/-- The words of the hasher as those of the standard. -/
def Words.state (s : Words) : Standard.State :=
  ⟨s.a.toBitVec, s.b.toBitVec, s.c.toBitVec, s.d.toBitVec, s.e.toBitVec, s.f.toBitVec,
    s.g.toBitVec, s.h.toBitVec⟩

/-- The words in a row. -/
def Words.toList (s : Words) : List UInt32 := [s.a, s.b, s.c, s.d, s.e, s.f, s.g, s.h]

/-- The words that the hasher starts from are those of the standard. -/
theorem state_initial : Words.initial.state = .initial := by
  have hroots : ∀ q ∈ Standard.primes.zip Words.initial.toList,
      Standard.isRootFraction 2 q.1 q.2 = true := by
    rw [Standard.primes_eq]
    decide +kernel
  have hword (i : Nat) (hi : i < Words.initial.toList.length) :
      Words.initial.toList[i].toBitVec = Standard.initialWord i :=
    Standard.toBitVec_of_roots (by decide) (by decide) hroots hi
  rw [Standard.State.initial, ← hword 0 (by decide), ← hword 1 (by decide),
    ← hword 2 (by decide), ← hword 3 (by decide), ← hword 4 (by decide), ← hword 5 (by decide),
    ← hword 6 (by decide), ← hword 7 (by decide)]
  rfl

end Zipship.Digest
