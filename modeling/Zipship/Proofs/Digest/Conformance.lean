import Zipship.Proofs.Digest.Standard

/-!
# The digest is SHA-256

The hasher works on bytes and on 32-bit integers, keeps the sixteen words that are due next instead
of all words of the rounds, and mixes in a block as soon as it is there. Part by part it does what
the standard asks for:

* four bytes make up the word that their bits write (`ofBytes_eq`);
* `mix` is one block of the standard (`state_mix`): the words in the window are those of the
  schedule (`window_cons`), and each round changes the words as the standard says (`state_round`);
* whole blocks are mixed in as the standard folds them (`state_mixBlocks`);
* the padding in bytes is the padding in bits, for every length (`bits_padding`);
* the bytes of the last words are the digest (`bits_toBytes`).

Together: **`bits_sha256`**, and for the text `hex_sha256`.
-/

namespace Zipship.Digest

variable {b message : Bytes}

/-! ## Words -/

theorem toNat_wordOfBytes (x₀ x₁ x₂ x₃ : UInt8) :
    ((x₀.toUInt32 <<< 24) ||| (x₁.toUInt32 <<< 16) ||| (x₂.toUInt32 <<< 8) |||
      x₃.toUInt32).toNat = Standard.number (Standard.bits [x₀, x₁, x₂, x₃]) := by
  have h₁ := x₁.toNat_lt
  have h₂ := x₂.toNat_lt
  have h₃ := x₃.toNat_lt
  have hshift (x : UInt8) (i : UInt32) (hi : i.toNat ≤ 24) :
      (x.toUInt32 <<< i).toNat = x.toNat <<< i.toNat := by
    have hx : x.toNat <<< i.toNat < 2 ^ 32 := by
      rw [Nat.shiftLeft_eq]
      calc x.toNat * 2 ^ i.toNat ≤ x.toNat * 2 ^ 24 :=
            Nat.mul_le_mul_left _ (Nat.pow_le_pow_right (by decide) hi)
        _ < 2 ^ 8 * 2 ^ 24 := Nat.mul_lt_mul_of_pos_right x.toNat_lt (by decide)
    rw [UInt32.toNat_shiftLeft, UInt8.toNat_toUInt32, Nat.mod_eq_of_lt (a := i.toNat) (by omega),
      Nat.mod_eq_of_lt hx]
  -- what is shifted leaves the lower places free, so that "or" adds
  have hor {a b i : Nat} (hb : b < 2 ^ i) : a <<< i ||| b = a * 2 ^ i + b := by
    rw [← Nat.shiftLeft_add_eq_or_of_lt hb, Nat.shiftLeft_eq]
  have hnil : Standard.number (Standard.bits []) = 0 := rfl
  rw [UInt32.toNat_or, UInt32.toNat_or, UInt32.toNat_or, hshift x₀ 24 (by decide),
    hshift x₁ 16 (by decide), hshift x₂ 8 (by decide), UInt8.toNat_toUInt32, Nat.or_assoc,
    Nat.or_assoc]
  show x₀.toNat <<< 24 ||| (x₁.toNat <<< 16 ||| (x₂.toNat <<< 8 ||| x₃.toNat)) = _
  rw [hor h₃, hor (a := x₁.toNat) (i := 16) (by omega), hor (a := x₀.toNat) (i := 24) (by omega)]
  simp only [Standard.number_bits_cons, List.length_cons, List.length_nil, hnil]
  omega

theorem toBitVec_wordOfBytes (x₀ x₁ x₂ x₃ : UInt8) :
    ((x₀.toUInt32 <<< 24) ||| (x₁.toUInt32 <<< 16) ||| (x₂.toUInt32 <<< 8) |||
      x₃.toUInt32).toBitVec =
        BitVec.ofNat 32 (Standard.number (Standard.bits [x₀, x₁, x₂, x₃])) := by
  rw [← toNat_wordOfBytes, UInt32.toNat, BitVec.ofNat_toNat, BitVec.setWidth_eq]

/-- Four bytes make up the word that their bits write. -/
theorem ofBytes_eq (n : Nat) (hb : b.length = 4 * n) : Words.ofBytes b =
    (List.range n).map fun j => UInt32.ofBitVec (Standard.word (Standard.bits b) j) := by
  induction n generalizing b with
  | zero =>
    obtain rfl := List.eq_nil_of_length_eq_zero hb
    rfl
  | succ n ih =>
    match b, hb with
    | x₀ :: x₁ :: x₂ :: x₃ :: rest, hb =>
      have hrest : rest.length = 4 * n := by
        simp only [List.length_cons] at hb
        omega
      rw [Words.ofBytes, ih hrest, List.range_succ_eq_map, List.map_cons, List.map_map]
      refine List.cons_eq_cons.mpr ⟨?_, List.map_congr_left fun j _ => ?_⟩
      · rw [← UInt32.toBitVec_inj, UInt32.toBitVec_ofBitVec, Standard.word_bits]
        exact toBitVec_wordOfBytes x₀ x₁ x₂ x₃
      · rw [Standard.word_bits, Function.comp_apply, Standard.word_bits]
        rfl

theorem wordBytes_eq (w : UInt32) : Words.wordBytes w =
    (List.range 4).map fun i => UInt8.ofNat (w.toNat / Nat.pow 256 (3 - i)) := by
  have hbyte (i : Nat) (hi : i < 4) :
      (w >>> UInt32.ofNat (8 * i)).toUInt8 = UInt8.ofNat (w.toNat / Nat.pow 256 i) := by
    have hmod : (UInt32.ofNat (8 * i)).toNat % 32 = 8 * i := by
      rw [UInt32.toNat_ofNat']
      omega
    rw [← UInt8.toNat_inj, UInt32.toNat_toUInt8, UInt32.toNat_shiftRight, UInt8.toNat_ofNat',
      hmod, Nat.shiftRight_eq_div_pow, Nat.pow_mul]
    rfl
  have hlow : w.toUInt8 = UInt8.ofNat (w.toNat / Nat.pow 256 0) := by
    rw [Nat.pow_eq, Nat.pow_zero, Nat.div_one]
    rfl
  show [(w >>> UInt32.ofNat (8 * 3)).toUInt8, (w >>> UInt32.ofNat (8 * 2)).toUInt8,
    (w >>> UInt32.ofNat (8 * 1)).toUInt8, w.toUInt8] = _
  rw [hbyte 3 (by decide), hbyte 2 (by decide), hbyte 1 (by decide), hlow]
  rfl

theorem bits_wordBytes (w : UInt32) :
    Standard.bits (Words.wordBytes w) = Standard.wordBits w.toBitVec := by
  rw [wordBytes_eq, Standard.wordBits]
  refine (Standard.bits_digits w.toNat 4).trans (List.map_congr_left fun i hi => ?_)
  rw [BitVec.getMsbD, decide_eq_true (List.mem_range.mp hi), Bool.true_and]
  rfl

/-- The bytes of the words have the bits of the hash value. -/
theorem bits_toBytes (s : Words) : Standard.bits s.toBytes = s.state.bits := by
  simp only [Words.toBytes, List.flatMap_cons, List.flatMap_nil, Standard.bits_append,
    bits_wordBytes]
  rfl

/-! ## Rounds -/

theorem toBitVec_shiftRight (x n : UInt32) (hlt : n.toNat < 32) :
    (x >>> n).toBitVec = x.toBitVec >>> n.toNat := by
  have hmod : (n.toBitVec % 32).toNat = n.toNat := by
    rw [BitVec.toNat_umod]
    exact Nat.mod_eq_of_lt hlt
  rw [UInt32.toBitVec_shiftRight, BitVec.ushiftRight_eq', hmod]

theorem toBitVec_rotr (x n : UInt32) (hn : 0 < n.toNat ∧ n.toNat < 32) :
    (Words.rotr x n).toBitVec = x.toBitVec.rotateRight n.toNat := by
  have hmod : ((32 - n).toBitVec % 32).toNat = 32 - n.toNat := by
    have hsub : (32 - n).toNat = 32 - n.toNat :=
      UInt32.toNat_sub_of_le _ _ (UInt32.le_iff_toNat_le.mpr hn.2.le)
    rw [BitVec.toNat_umod]
    show (32 - n).toNat % 32 = _
    rw [hsub]
    exact Nat.mod_eq_of_lt (by omega)
  rw [BitVec.rotateRight_def, Nat.mod_eq_of_lt hn.2, Words.rotr, UInt32.toBitVec_or,
    toBitVec_shiftRight x n hn.2, UInt32.toBitVec_shiftLeft, BitVec.shiftLeft_eq', hmod]

theorem toBitVec_turns (x i j k : UInt32) (hi : 0 < i.toNat ∧ i.toNat < 32)
    (hj : 0 < j.toNat ∧ j.toNat < 32) (hk : 0 < k.toNat ∧ k.toNat < 32) :
    (Words.rotr x i ^^^ Words.rotr x j ^^^ Words.rotr x k).toBitVec =
      Standard.turns i.toNat j.toNat k.toNat x.toBitVec := by
  rw [UInt32.toBitVec_xor, UInt32.toBitVec_xor, toBitVec_rotr x i hi, toBitVec_rotr x j hj,
    toBitVec_rotr x k hk, Standard.turns]

theorem toBitVec_turnsAndShift (x i j k : UInt32) (hi : 0 < i.toNat ∧ i.toNat < 32)
    (hj : 0 < j.toNat ∧ j.toNat < 32) (hk : k.toNat < 32) :
    (Words.rotr x i ^^^ Words.rotr x j ^^^ (x >>> k)).toBitVec =
      Standard.turnsAndShift i.toNat j.toNat k.toNat x.toBitVec := by
  rw [UInt32.toBitVec_xor, UInt32.toBitVec_xor, toBitVec_rotr x i hi, toBitVec_rotr x j hj,
    toBitVec_shiftRight x k hk, Standard.turnsAndShift]

/-- A round with the constant and the word of round `t` is round `t`. -/
theorem state_round (s : Words) {k w : UInt32} {t : Nat} {ws : Nat → Standard.Word}
    (hk : k.toBitVec = Standard.constant t) (hw : w.toBitVec = ws t) :
    (s.round k w).state = Standard.round ws s.state t := by
  have hsigma₀ : _ = Standard.bigSigma0 s.a.toBitVec :=
    toBitVec_turns s.a 2 13 22 (by decide) (by decide) (by decide)
  have hsigma₁ : _ = Standard.bigSigma1 s.e.toBitVec :=
    toBitVec_turns s.e 6 11 25 (by decide) (by decide) (by decide)
  simp only [Words.round, Words.state, Standard.round, Standard.choose, Standard.majority, ← hk,
    ← hw, ← hsigma₀, ← hsigma₁]
  rfl

section Schedule

variable (block : Fin 16 → Standard.Word)

theorem schedule_of_lt {t : Nat} (ht : t < 16) : Standard.schedule block t = block ⟨t, ht⟩ := by
  rw [Standard.schedule, dif_pos ht]

theorem schedule_add (t : Nat) : Standard.schedule block (t + 16) =
    Standard.smallSigma1 (Standard.schedule block (t + 14)) + Standard.schedule block (t + 9) +
      Standard.smallSigma0 (Standard.schedule block (t + 1)) + Standard.schedule block t := by
  rw [Standard.schedule, dif_neg (by omega)]
  rfl

/-- The words of sixteen rounds, from round `t` on. -/
def window (t : Nat) : List UInt32 :=
  (List.range 16).map fun i => UInt32.ofBitVec (Standard.schedule block (t + i))

theorem nextWord_window (t : Nat) : Words.nextWord (window block t) =
    UInt32.ofBitVec (Standard.schedule block (t + 16)) := by
  have hread (w : Nat → UInt32) : Words.nextWord ((List.range 16).map w) =
      w 0 + (Words.rotr (w 1) 7 ^^^ Words.rotr (w 1) 18 ^^^ (w 1 >>> 3)) + w 9 +
        (Words.rotr (w 14) 17 ^^^ Words.rotr (w 14) 19 ^^^ (w 14 >>> 10)) := rfl
  have hsigma₀ (x : UInt32) : _ = Standard.smallSigma0 x.toBitVec :=
    toBitVec_turnsAndShift x 7 18 3 (by decide) (by decide) (by decide)
  have hsigma₁ (x : UInt32) : _ = Standard.smallSigma1 x.toBitVec :=
    toBitVec_turnsAndShift x 17 19 10 (by decide) (by decide) (by decide)
  rw [window, hread, ← UInt32.toBitVec_inj, UInt32.toBitVec_add, UInt32.toBitVec_add,
    UInt32.toBitVec_add, hsigma₀, hsigma₁, schedule_add]
  simp only [Nat.add_zero]
  ac_rfl

/-- A round takes the first word of its window, and the next one moves in behind. -/
theorem window_cons (t : Nat) : ∃ rest,
    window block t = UInt32.ofBitVec (Standard.schedule block t) :: rest ∧
    rest ++ [Words.nextWord (window block t)] = window block (t + 1) := by
  refine ⟨(List.range 15).map fun i => UInt32.ofBitVec (Standard.schedule block (t + 1 + i)),
    ?_, ?_⟩
  · rw [window, List.range_succ_eq_map]
    simp [Function.comp_def, Nat.add_comm, Nat.add_left_comm]
  · rw [nextWord_window, window, List.range_succ, List.map_append]
    rfl

theorem state_rounds (s : Words) (n t : Nat) (hn : t + n = 64) :
    (Words.rounds (Words.constants.drop t) (window block t) s).state =
      (List.range' t n).foldl (Standard.round (Standard.schedule block)) s.state := by
  induction n generalizing t s with
  | zero =>
    obtain rfl : t = 64 := hn
    rfl
  | succ n ih =>
    have ht : t < Words.constants.length := by
      show t < 64
      omega
    have hk := Standard.toBitVec_constants ht
    obtain ⟨rest, hwindow, hnext⟩ := window_cons block t
    rw [List.drop_eq_getElem_cons ht, hwindow, Words.rounds, ← hwindow, hnext,
      ih _ (t + 1) (by omega), state_round s hk rfl]
    rfl

end Schedule

/-! ## Blocks -/

/-- Mixing in 64 bytes is what the standard does with a block. -/
theorem state_mix (s : Words) (hb : b.length = 64) :
    (s.mix b).state = Standard.compress s.state fun j => Standard.word (Standard.bits b) j := by
  have hwindow : Words.ofBytes b = window (fun j => Standard.word (Standard.bits b) j) 0 := by
    rw [ofBytes_eq 16 hb, window]
    refine List.map_congr_left fun i hi => ?_
    rw [Nat.zero_add, schedule_of_lt _ (List.mem_range.mp hi)]
  have hrounds := state_rounds (fun j => Standard.word (Standard.bits b) j) s 64 0 rfl
  rw [← List.range_eq_range', List.drop_zero] at hrounds
  rw [Words.mix, hwindow, Standard.compress, ← hrounds]
  generalize Words.rounds Words.constants (window _ 0) s = t
  simp only [Words.state, UInt32.toBitVec_add, BitVec.add_comm]

theorem state_mixBlocks (s : Words) (n : Nat) (hb : b.length = 64 * n) :
    (mixBlocks s b).1.state = (List.range n).foldl (fun s i =>
      Standard.compress s fun j => Standard.word (Standard.bits b) (16 * i + j)) s.state := by
  induction n generalizing s b with
  | zero =>
    obtain rfl := List.eq_nil_of_length_eq_zero hb
    rfl
  | succ n ih =>
    have htake : (b.take 64).length = 64 := by
      rw [List.length_take]
      omega
    have hdrop : (b.drop 64).length = 64 * n := by
      rw [List.length_drop]
      omega
    have hfirst (j : Fin 16) : Standard.word (Standard.bits (b.take 64)) j =
        Standard.word (Standard.bits b) (16 * 0 + j) := by
      rw [Standard.word_bits, Standard.word_bits, Nat.mul_zero, Nat.zero_add, List.drop_take,
        List.take_take, Nat.min_eq_left (by omega)]
    have hbehind (i : Nat) (j : Fin 16) : Standard.word (Standard.bits (b.drop 64)) (16 * i + j) =
        Standard.word (Standard.bits b) (16 * (i + 1) + j) := by
      have hplace : 64 + 4 * (16 * i + j) = 4 * (16 * (i + 1) + j) := by omega
      rw [Standard.word_bits, Standard.word_bits, List.drop_drop, hplace]
    rw [mixBlocks_eq, if_neg (by rw [hb, blockSize]; omega)]
    show (mixBlocks (s.mix (b.take 64)) (b.drop 64)).1.state = _
    rw [ih _ hdrop, state_mix _ htake, List.range_succ_eq_map, List.foldl_cons, List.foldl_map]
    simp only [hfirst, hbehind]

/-! ## Padding -/

/-- Clear bits come in whole bytes but for the seven behind the set bit. -/
theorem zeros_bytes (l : Nat) : Standard.zeros (8 * l) = 7 + 8 * ((119 - l % 64) % 64) := by
  rw [Standard.zeros, Nat.find_eq_iff]
  refine ⟨by omega, fun k hk => ?_⟩
  omega

/-- The padding in bytes is the padding in bits. -/
theorem bits_padding (message : Bytes) :
    Standard.bits (message ++ padding message.length) = Standard.pad (Standard.bits message) := by
  have hmark : Standard.bits [0x80] = true :: List.replicate 7 false := by decide
  have hlength : Standard.bits (be64 (8 * message.length)) =
      (List.range 64).map fun i => (8 * message.length).testBit (63 - i) :=
    Standard.bits_digits (8 * message.length) 8
  rw [padding, Standard.bits_append, Standard.bits_append, Standard.bits_cons, hmark, hlength,
    Standard.bits_zeros, Standard.pad, Standard.length_bits, zeros_bytes, List.replicate_add]
  simp [blockSize]

theorem state_hash (message : Bytes) :
    (mixBlocks .initial (message ++ padding message.length)).1.state =
      Standard.hash (Standard.bits message) := by
  have hlen := Standard.length_pad (Standard.bits message)
  rw [← bits_padding, Standard.length_bits] at hlen
  rw [Standard.hash, ← bits_padding, ← state_initial, Standard.length_bits]
  refine state_mixBlocks _ _ ?_
  omega

/-! ## The digest -/

/-- **The digest is the one of the standard**, whatever the length of the message. -/
theorem bits_sha256 (message : Bytes) :
    Standard.bits (sha256 message) = Standard.digest (Standard.bits message) := by
  rw [sha256, bits_toBytes, state_hash]
  rfl

theorem hexText_byte : ∀ n < 256,
    Standard.hexText ((List.range 8).map fun i => n.testBit (7 - i)) =
      [hexDigit (n / 16), hexDigit (n % 16)] := by
  decide +kernel

theorem hexText_bits (b : Bytes) : Standard.hexText (Standard.bits b) = hexChars b := by
  induction b with
  | nil => rfl
  | cons x b ih =>
    have hbyte := hexText_byte x.toNat x.toNat_lt
    have hcons : Standard.hexText (Standard.bits [x] ++ Standard.bits b) =
        Standard.hexText (Standard.bits [x]) ++ Standard.hexText (Standard.bits b) := rfl
    have hx : Standard.hexText (Standard.bits [x]) = hexChars [x] := by
      simpa [Standard.bits, hexChars] using hbyte
    rw [Standard.bits_cons, hcons, hx, ih, ← List.singleton_append (l := b)]
    exact List.flatMap_append.symm

theorem hex_sha256 (message : Bytes) : hex (sha256 message) = Standard.text message := by
  rw [Standard.text, ← bits_sha256, hexText_bits, hex]

theorem length_toBytes (s : Words) : s.toBytes.length = 32 := rfl

/-- The text of a digest has sixty-four characters. -/
theorem length_text (message : Bytes) : (Standard.text message).length = 64 := by
  rw [← hex_sha256, hex, String.length_ofList, length_hexChars, sha256, length_toBytes]

theorem hexDigit_mem : ∀ n < 16, hexDigit n ∈ "0123456789abcdef".toList := by decide

/-- Each of them is a lower-case digit. -/
theorem mem_text {c : Char} (hc : c ∈ (Standard.text message).toList) :
    c ∈ "0123456789abcdef".toList := by
  rw [← hex_sha256, hex, String.toList_ofList, hexChars, List.mem_flatMap] at hc
  obtain ⟨x, -, hx⟩ := hc
  have hlt := x.toNat_lt
  rcases List.mem_cons.mp hx with rfl | hx
  · exact hexDigit_mem _ (by omega)
  · rw [List.mem_singleton.mp hx]
    exact hexDigit_mem _ (by omega)

end Zipship.Digest
