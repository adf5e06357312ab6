import Zipship.Deflate.Code
import Zipship.Proofs.Deflate.Bits

/-!
# Prefix codes are read back

A code is read bit by bit. On the way every beginning of it is no code: it is past all codes of its
own length, since the first code of a length is twice what comes behind the codes of the length
before. At the length of the code its place among the codes of this length gives the symbol.
-/

namespace Zipship.Deflate

open BitWriter (Writes)
open BitReader (Reads)

/-! ## The first codes -/

@[simp] theorem firstCode_zero (code : Nat) (counts : List Nat) :
    firstCode code counts 0 = code := by
  cases counts <;> rfl

theorem firstCode_succ {counts : List Nat} {m : Nat} (hm : m < counts.length) (code : Nat) :
    firstCode code counts (m + 1) = 2 * (firstCode code counts m + counts[m]) := by
  induction m generalizing code counts with
  | zero =>
    obtain ⟨count, counts, rfl⟩ := List.exists_cons_of_length_pos hm
    simp [firstCode]
  | succ m ih =>
    obtain ⟨count, counts, rfl⟩ := List.exists_cons_of_length_pos (Nat.zero_lt_of_lt hm)
    rw [firstCode, ih (by simpa using hm), firstCode, List.getElem_cons_succ]

/-- With every bit the first code doubles at least. -/
theorem two_pow_mul_le_firstCode {counts : List Nat} {m : Nat} (hm : m ≤ counts.length)
    (code : Nat) : 2 ^ m * code ≤ firstCode code counts m := by
  induction m with
  | zero => rw [Nat.pow_zero, Nat.one_mul, firstCode_zero]
  | succ m ih =>
    rw [firstCode_succ hm, Nat.pow_succ', Nat.mul_assoc]
    exact Nat.mul_le_mul_left 2 ((ih (Nat.le_of_succ_le hm)).trans (Nat.le_add_right _ _))

theorem firstCode_mono (counts : List Nat) {a b : Nat} (hab : a ≤ b) (hb : b ≤ counts.length)
    (code : Nat) : 2 ^ (b - a) * firstCode code counts a ≤ firstCode code counts b := by
  obtain ⟨more, rfl⟩ := Nat.exists_eq_add_of_le hab
  rw [Nat.add_sub_cancel_left]
  clear hab
  induction more with
  | zero => rw [Nat.pow_zero, Nat.one_mul, Nat.add_zero]
  | succ more ih =>
    have hmore : a + more < counts.length := hb
    rw [← Nat.add_assoc, firstCode_succ hmore, Nat.pow_succ', Nat.mul_assoc]
    exact Nat.mul_le_mul_left 2 ((ih (Nat.le_of_succ_le hb)).trans (Nat.le_add_right _ _))

/-! ## Symbols of a length -/

@[simp] theorem length_lengthCounts (lengths : Array Nat) : (lengthCounts lengths).length = 15 := by
  rw [lengthCounts, List.length_map, List.length_range]

theorem length_ofLength (lengths : Array Nat) (l : Nat) :
    (ofLength lengths l).length = lengths.toList.count l := by
  have hall : (List.range lengths.size).map (lengths.getD · 0) = lengths.toList := by
    refine List.ext_getElem (by simp) fun s hs hs' => ?_
    have hlt : s < lengths.size := by simpa using hs
    simp [hlt]
  rw [← hall, List.count, List.countP_map, ofLength, ← List.countP_eq_length_filter]
  exact List.countP_congr fun s _ => by simp

theorem getElem_lengthCounts (lengths : Array Nat) {l : Nat}
    (hl : l < (lengthCounts lengths).length) :
    (lengthCounts lengths)[l] = (ofLength lengths (l + 1)).length := by
  rw [length_ofLength]
  simp [lengthCounts]

/-- The place of a number among those in a range that satisfy a condition. -/
theorem getElem?_filter_range {p : Nat → Bool} {s n : Nat} (hs : s < n) (hp : p s = true) :
    ((List.range n).filter p)[(List.range s).countP p]? = some s := by
  obtain ⟨more, rfl⟩ := Nat.exists_eq_add_of_lt hs
  rw [Nat.add_assoc, List.range_add, List.filter_append, List.countP_eq_length_filter,
    List.getElem?_append_right (Nat.le_refl _), Nat.sub_self, List.range_succ_eq_map,
    List.map_cons, List.filter_cons_of_pos (by exact hp)]
  rfl

theorem getElem?_flatMap {α β : Type} {f : α → List β} {l : List α} {i j : Nat}
    (hi : i < l.length) (hj : j < (f l[i]).length) :
    (l.flatMap f)[((l.map fun a => (f a).length).take i).sum + j]? = (f l[i])[j]? := by
  induction i generalizing l with
  | zero =>
    obtain ⟨a, l, rfl⟩ := List.exists_cons_of_length_pos hi
    rw [List.take_zero, List.sum_nil, Nat.zero_add, List.flatMap_cons]
    exact List.getElem?_append_left hj
  | succ i ih =>
    obtain ⟨a, l, rfl⟩ := List.exists_cons_of_length_pos (Nat.zero_lt_of_lt hi)
    rw [List.map_cons, List.take_succ_cons, List.sum_cons, List.flatMap_cons, Nat.add_assoc,
      List.getElem?_append_right (Nat.le_add_right _ _), Nat.add_sub_cancel_left,
      List.getElem_cons_succ]
    exact ih (by simpa using hi) hj

/-- The place of a symbol among those with a code of the same length. -/
def rankOf (lengths : Array Nat) (s : Nat) : Nat :=
  (List.range s).countP fun t => lengths.getD t 0 = lengths.getD s 0

theorem getElem?_ofLength {lengths : Array Nat} {s : Nat} (hs : s < lengths.size) :
    (ofLength lengths (lengths.getD s 0))[rankOf lengths s]? = some s :=
  getElem?_filter_range (p := fun t => lengths.getD t 0 = lengths.getD s 0) hs (by simp)

theorem getD_canonicalCodes {lengths : Array Nat} {s : Nat} (hs : s < lengths.size) :
    (canonicalCodes lengths).getD s 0 =
      firstCode 0 (lengthCounts lengths) (lengths.getD s 0 - 1) + rankOf lengths s := by
  simp [canonicalCodes, rankOf, hs]

/-! ## Reading a code -/

theorem reads_symbolAux (d : Decoding) {counts : List Nat} {m target : Nat}
    (hm : m < counts.length) (code first index : Nat) (hcode : target / 2 ^ (m + 1) = code)
    (hfirst : firstCode first counts m ≤ target)
    (hlast : target < firstCode first counts m + counts[m]) :
    Reads (d.symbolAux code first index counts) (codeBits (m + 1) target)
      (d.symbols.getD (index + (counts.take m).sum + (target - firstCode first counts m)) 0) := by
  induction m generalizing counts code first index with
  | zero =>
    intro r tail hr
    obtain ⟨count, counts, rfl⟩ := List.exists_cons_of_length_pos hm
    have hbits : codeBits (0 + 1) target = [target % 2] := by simp [codeBits, numberBits]
    have hwhole : 2 * code + target % 2 = target := by omega
    rw [hbits] at hr ⊢
    rw [firstCode_zero] at hlast
    rw [Decoding.symbolAux, BitReader.bit?_eq hr]
    simp only [hwhole, if_pos (show target < first + count from hlast), firstCode_zero]
    simp
  | succ m ih =>
    intro r tail hr
    obtain ⟨count, counts, rfl⟩ := List.exists_cons_of_length_pos (Nat.zero_lt_of_lt hm)
    have hm' : m < counts.length := by simpa using hm
    have hhalf : 2 * code + target / 2 ^ (m + 1) % 2 = target / 2 ^ (m + 1) := by
      rw [← hcode, Nat.pow_succ 2 (m + 1), ← Nat.div_div_eq_div_mul]
      omega
    -- a beginning of the code is past all codes of its own length
    have hpast : ¬ target / 2 ^ (m + 1) < first + count := by
      have hdouble := two_pow_mul_le_firstCode (Nat.le_of_lt hm') (2 * (first + count))
      rw [← Nat.mul_assoc, ← Nat.pow_succ] at hdouble
      rw [Nat.not_lt, Nat.le_div_iff_mul_le (Nat.two_pow_pos _), Nat.mul_comm]
      exact hdouble.trans hfirst
    rw [codeBits_succ] at hr ⊢
    have hrest := ih hm' (target / 2 ^ (m + 1)) (2 * (first + count)) (index + count) rfl hfirst
      hlast (r.skip 1) tail (BitReader.rest_skip_one hr)
    rw [Decoding.symbolAux, BitReader.bit?_eq hr]
    simp only [hhalf, if_neg hpast, hrest, firstCode, List.take_succ_cons, List.sum_cons,
      BitReader.skip_skip, List.length_cons, Nat.add_assoc, Nat.add_comm 1]

namespace Coding

variable {c : Coding} {s : Nat}

/-- The bits of the code of a symbol. -/
def bits (c : Coding) (s : Nat) : List Nat := codeBits (c.length s) (c.codes.getD s 0)

@[simp] theorem length_bits (c : Coding) (s : Nat) : (c.bits s).length = c.length s :=
  length_codeBits _ _

theorem writes_put (c : Coding) (s : Nat) : Writes (c.put · s) (c.bits s) :=
  BitWriter.writes_putCode _ _

theorem lt_size_of_length_pos (hs : 0 < c.length s) : s < c.lengths.size := by
  by_contra hout
  simp [length, Array.getD_eq_getD_getElem?, Array.getElem?_eq_none (Nat.le_of_not_lt hout)] at hs

theorem length_pos_of_forall (h : ∀ l ∈ c.lengths.toList, 0 < l) (hs : s < c.lengths.size) :
    0 < c.length s := by
  rw [length, Array.getD_eq_getD_getElem?, Array.getElem?_eq_getElem hs]
  exact h _ (Array.getElem_mem_toList hs)

theorem length_le (c : Coding) (s : Nat) : c.length s ≤ 15 := by
  rcases Nat.eq_zero_or_pos (c.length s) with hzero | hpos
  · omega
  · have hs := lt_size_of_length_pos hpos
    refine c.isCode.1 _ ?_
    rw [length, Array.getD_eq_getD_getElem?, Array.getElem?_eq_getElem hs]
    exact Array.getElem_mem_toList hs

/-- The codes do not run out at any length. -/
theorem firstCode_add_le (c : Coding) {l : Nat} (hl : l < 15) :
    firstCode 0 (lengthCounts c.lengths) l + (ofLength c.lengths (l + 1)).length ≤ 2 ^ (l + 1) := by
  have hl' : l < (lengthCounts c.lengths).length := by simpa using hl
  have hmore := firstCode_mono (lengthCounts c.lengths) (Nat.succ_le_of_lt hl) (by simp) 0
  have hall : 2 ^ (15 - (l + 1)) * 2 ^ (l + 2) = 65536 := by
    rw [← Nat.pow_add, show 15 - (l + 1) + (l + 2) = 16 by omega]
  rw [firstCode_succ hl', getElem_lengthCounts] at hmore
  have hroom := hmore.trans c.isCode.2
  rw [← hall] at hroom
  have hlast := Nat.le_of_mul_le_mul_left hroom (Nat.two_pow_pos _)
  rw [Nat.pow_succ' (n := l + 1)] at hlast
  exact Nat.le_of_mul_le_mul_left hlast (by decide)

/-- A symbol that has a code is read from it. -/
theorem reads_symbol (hs : 0 < c.length s) :
    Reads (Decoding.ofLengths c.lengths).symbol? (c.bits s) s := by
  have hsize := lt_size_of_length_pos hs
  obtain ⟨l, hl⟩ : ∃ l, c.length s = l + 1 := Nat.exists_eq_succ_of_ne_zero (Nat.ne_of_gt hs)
  have hlength : c.lengths.getD s 0 = l + 1 := hl
  have hle := c.length_le s
  have hl15 : l < (lengthCounts c.lengths).length := by
    rw [length_lengthCounts]
    omega
  -- the code is that of the place of the symbol among those of its length
  have hplace := getElem?_ofLength hsize
  rw [hlength] at hplace
  obtain ⟨hrank, -⟩ := List.getElem?_eq_some_iff.mp hplace
  have hcode : c.codes.getD s 0 =
      firstCode 0 (lengthCounts c.lengths) l + rankOf c.lengths s := by
    rw [c.codes_eq, getD_canonicalCodes hsize, hlength, Nat.add_sub_cancel]
  have hroom := c.firstCode_add_le (l := l) (by omega)
  have hfits : c.codes.getD s 0 / 2 ^ (l + 1) = 0 := Nat.div_eq_of_lt (by rw [hcode]; omega)
  have hreads := reads_symbolAux (Decoding.ofLengths c.lengths) hl15 0 0 0 hfits
    (by rw [hcode]; exact Nat.le_add_right _ _)
    (by rw [hcode, getElem_lengthCounts]; exact Nat.add_lt_add_left hrank _)
  -- and so the symbol is found at this place
  have hindex := getElem?_flatMap (f := fun l => ofLength c.lengths (l + 1)) (l := List.range 15)
    (i := l) (j := rankOf c.lengths s) (by simp; omega) (by simpa using hrank)
  simp only [length_ofLength] at hindex
  have hsymbol : (Decoding.ofLengths c.lengths).symbols.getD
      (0 + ((lengthCounts c.lengths).take l).sum +
        (c.codes.getD s 0 - firstCode 0 (lengthCounts c.lengths) l)) 0 = s := by
    rw [Nat.zero_add, hcode, Nat.add_sub_cancel_left, Array.getD_eq_getD_getElem?]
    simp only [Decoding.ofLengths, List.getElem?_toArray]
    simp only [List.getElem_range] at hindex
    rw [lengthCounts, hindex, hplace]
    rfl
  rw [hsymbol] at hreads
  rw [bits, hl]
  exact hreads

end Coding

end Zipship.Deflate
