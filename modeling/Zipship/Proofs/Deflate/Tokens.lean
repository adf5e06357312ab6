import Zipship.Deflate.Decoder
import Zipship.Proofs.Deflate.Code

/-!
# Tokens are read back

A length or a distance is in the range that its code stands for, and its extra bits are its place in
the range. So the tokens of a block are read one by one, and what they append to the data is what
they stand for, provided that all symbols in them have codes; counting how often symbols occur finds
all that need one.
-/

namespace Zipship.Deflate

open BitWriter (Writes)
open BitReader (Reads)

/-! ## Ranges -/

/-- A number is in a range. -/
def Range.Holds (range : Range) (n : Nat) : Prop :=
  range.first ≤ n ∧ n < range.first + 2 ^ range.extraBits

theorem Range.Holds.extra_lt {range : Range} {n : Nat} (h : range.Holds n) :
    n - range.first < 2 ^ range.extraBits := by
  have hfirst := h.1
  have hlast := h.2
  omega

/-- Every range up to some code starts behind the one before it. -/
def Consecutive (ranges : Array Range) (code : Nat) : Prop :=
  ∀ c < code, (ranges.getD (c + 1) ⟨0, 0⟩).first =
    (ranges.getD c ⟨0, 0⟩).first + 2 ^ (ranges.getD c ⟨0, 0⟩).extraBits

theorem codeBelow_le (ranges : Array Range) (n code : Nat) : codeBelow ranges n code ≤ code := by
  induction code with
  | zero => exact Nat.le_refl 0
  | succ code ih =>
    rw [codeBelow]
    split_ifs
    · exact Nat.le_refl _
    · exact ih.trans (Nat.le_succ code)

/-- The range of the code that is found holds the number. -/
theorem holds_codeBelow {ranges : Array Range} {n code : Nat} (h : Consecutive ranges code)
    (hfirst : (ranges.getD 0 ⟨0, 0⟩).first ≤ n)
    (hlast : n < (ranges.getD code ⟨0, 0⟩).first + 2 ^ (ranges.getD code ⟨0, 0⟩).extraBits) :
    (ranges.getD (codeBelow ranges n code) ⟨0, 0⟩).Holds n := by
  induction code with
  | zero => exact ⟨hfirst, hlast⟩
  | succ code ih =>
    rw [codeBelow]
    split_ifs with hle
    · exact ⟨hle, hlast⟩
    · refine ih (fun c hc => h c (Nat.lt_succ_of_lt hc)) ?_
      rw [← h code (Nat.lt_succ_self code)]
      exact Nat.lt_of_not_le hle

theorem consecutive_lengthRanges : Consecutive lengthRanges 27 := by unfold Consecutive; decide

theorem consecutive_distanceRanges : Consecutive distanceRanges 29 := by unfold Consecutive; decide

/-- The symbols of a copy: the length and the distance are in the ranges of their codes. -/
theorem exists_symbols_copy {length distance : Nat} (hmin : minCopy ≤ length)
    (hmax : length ≤ maxCopy) (hpos : 0 < distance) (hreach : distance ≤ maxReach) :
    ∃ lc l dc d, lengthRanges[lc]? = some l ∧ l.Holds length ∧
      distanceRanges[dc]? = some d ∧ d.Holds distance ∧
      (Token.copy length distance).symbols =
        ⟨firstLengthSymbol + lc, length - l.first, l.extraBits,
          some (dc, distance - d.first, d.extraBits)⟩ := by
  have hdistance : (distanceRanges.getD (codeOf distanceRanges distance) ⟨0, 0⟩).Holds distance :=
    holds_codeBelow consecutive_distanceRanges hpos (Nat.lt_succ_of_le hreach)
  have hdc : codeOf distanceRanges distance < distanceRanges.size :=
    Nat.lt_succ_of_le (codeBelow_le distanceRanges distance 29)
  have hget {ranges : Array Range} {c : Nat} (hc : c < ranges.size) :
      ranges[c]? = some (ranges.getD c ⟨0, 0⟩) := by
    simp [Array.getD_eq_getD_getElem?, hc]
  rcases Nat.eq_or_lt_of_le hmax with rfl | hless
  · exact ⟨28, ⟨258, 0⟩, _, _, rfl, ⟨Nat.le_refl _, Nat.lt_succ_self _⟩, hget hdc, hdistance, rfl⟩
  · have hlc : codeBelow lengthRanges length 27 < lengthRanges.size :=
      Nat.lt_of_le_of_lt (codeBelow_le lengthRanges length 27) (by decide)
    refine ⟨codeBelow lengthRanges length 27, _, _, _, hget hlc,
      holds_codeBelow consecutive_lengthRanges hmin ?_, hget hdc, hdistance, ?_⟩
    · exact Nat.lt_of_lt_of_le hless (by decide)
    · rw [Token.symbols, if_neg (Nat.ne_of_lt hless)]
      rfl

/-! ## How often symbols occur -/

/-- Count some symbols. -/
def tally (counts : Array Nat) (symbols : List Nat) : Array Nat :=
  symbols.foldl (fun counts s => counts.modify s (· + 1)) counts

theorem tally_cons (counts : Array Nat) (s : Nat) (symbols : List Nat) :
    tally counts (s :: symbols) = tally (counts.modify s (· + 1)) symbols := rfl

theorem size_tally (counts : Array Nat) (symbols : List Nat) :
    (tally counts symbols).size = counts.size := by
  induction symbols generalizing counts with
  | nil => rfl
  | cons s symbols ih => rw [tally_cons, ih, Array.size_modify]

theorem getD_modify (counts : Array Nat) (s t : Nat) : (counts.modify s (· + 1)).getD t 0 =
    if s = t ∧ t < counts.size then counts.getD t 0 + 1 else counts.getD t 0 := by
  simp only [Array.getD_eq_getD_getElem?, Array.getElem?_modify]
  by_cases ht : t < counts.size <;> by_cases hst : s = t <;> simp [ht, hst]

theorem le_tally (counts : Array Nat) (symbols : List Nat) (t : Nat) :
    counts.getD t 0 ≤ (tally counts symbols).getD t 0 := by
  induction symbols generalizing counts with
  | nil => exact Nat.le_refl _
  | cons s symbols ih =>
    refine Nat.le_trans ?_ (ih (counts.modify s (· + 1)))
    rw [getD_modify]
    split_ifs <;> omega

/-- What was counted has a positive count. -/
theorem tally_pos {counts : Array Nat} {symbols : List Nat} {s : Nat} (hs : s ∈ symbols)
    (hsize : s < counts.size) : 0 < (tally counts symbols).getD s 0 := by
  induction symbols generalizing counts with
  | nil => exact absurd hs List.not_mem_nil
  | cons t symbols ih =>
    rcases List.mem_cons.mp hs with rfl | hmem
    · refine Nat.lt_of_lt_of_le ?_ (le_tally (counts.modify s (· + 1)) symbols s)
      rw [getD_modify, if_pos ⟨rfl, hsize⟩]
      exact Nat.succ_pos _
    · exact ih hmem (by rwa [Array.size_modify])

namespace Frequencies

theorem main_foldl (f : Frequencies) (tokens : List Token) :
    (tokens.foldl count f).main = tally f.main (tokens.map (·.symbols.main)) := by
  induction tokens generalizing f with
  | nil => rfl
  | cons t tokens ih =>
    have hcount : (f.count t).main = f.main.modify t.symbols.main (· + 1) := by
      obtain ⟨main, distance, extra⟩ := f
      simp only [count]
      cases t.symbols.distance <;> rfl
    rw [List.foldl_cons, ih, hcount]
    rfl

theorem distance_foldl (f : Frequencies) (tokens : List Token) :
    (tokens.foldl count f).distance =
      tally f.distance (tokens.filterMap (·.symbols.distance.map (·.1))) := by
  induction tokens generalizing f with
  | nil => rfl
  | cons t tokens ih =>
    obtain ⟨main, distance, extra⟩ := f
    rw [List.foldl_cons, ih, List.filterMap_cons]
    simp only [count]
    cases t.symbols.distance <;> rfl

end Frequencies

/-! ## What a token is written as -/

/-! ## What tokens append -/

theorem exists_append_appendCopy (data : Array UInt8) (distance length : Nat) :
    ∃ more, appendCopy data distance length = data ++ more ∧ more.size = length := by
  induction length generalizing data with
  | zero => exact ⟨#[], by rw [appendCopy, Array.append_empty], rfl⟩
  | succ length ih =>
    obtain ⟨more, hmore, hsize⟩ := ih (data.push (data.getD (data.size - distance) 0))
    refine ⟨#[data.getD (data.size - distance) 0] ++ more, ?_, ?_⟩
    · rw [appendCopy, hmore, ← Array.append_assoc, Array.append_singleton]
    · rw [Array.size_append, hsize, Nat.add_comm]
      rfl

/-- Tokens append as many bytes as they stand for. -/
theorem exists_append {tokens : List Token} {out out' : Array UInt8}
    (h : tokens.foldlM appendToken? out = some out') (size : Nat) :
    ∃ more, out' = out ++ more ∧ size + more.size = tokens.foldl (fun n t => n + t.size) size := by
  induction tokens generalizing out size with
  | nil =>
    cases h
    exact ⟨#[], by rw [Array.append_empty], rfl⟩
  | cons t tokens ih =>
    rw [List.foldlM_cons, Option.bind_eq_bind, Option.bind_eq_some_iff] at h
    obtain ⟨middle, happend, hothers⟩ := h
    obtain ⟨first, rfl, hfirst⟩ : ∃ first, middle = out ++ first ∧ first.size = t.size := by
      cases t with
      | literal b =>
        cases happend
        exact ⟨#[b], by rw [Array.append_singleton], rfl⟩
      | copy length distance =>
        rw [appendToken?, Option.ite_none_right_eq_some] at happend
        obtain ⟨-, hout⟩ := happend
        cases hout
        exact exists_append_appendCopy out distance length
    obtain ⟨more, rfl, hmore⟩ := ih hothers (size + t.size)
    refine ⟨first ++ more, Array.append_assoc, ?_⟩
    rw [List.foldl_cons, ← hmore, Array.size_append, hfirst, Nat.add_assoc]

theorem exists_appendToken {tokens : List Token} {out out' : Array UInt8} {t : Token}
    (h : tokens.foldlM appendToken? out = some out') (ht : t ∈ tokens) :
    ∃ before behind, appendToken? before t = some behind := by
  induction tokens generalizing out with
  | nil => exact absurd ht List.not_mem_nil
  | cons u tokens ih =>
    rw [List.foldlM_cons, Option.bind_eq_bind, Option.bind_eq_some_iff] at h
    obtain ⟨middle, happend, hothers⟩ := h
    rcases List.mem_cons.mp ht with rfl | hmem
    · exact ⟨out, middle, happend⟩
    · exact ih hothers hmem

namespace Codebook

variable {book : Codebook} {t : Token} {tokens : List Token}

/-- The bits behind the first symbol of a token. -/
def extraBits (book : Codebook) (s : Symbols) : List Nat :=
  numberBits s.mainExtraBits s.mainExtra ++
    match s.distance with
    | none => []
    | some (code, extra, count) => book.distance.bits code ++ numberBits count extra

/-- The bits of a token. -/
def bits (book : Codebook) (t : Token) : List Nat :=
  book.main.bits t.symbols.main ++ book.extraBits t.symbols

/-- The symbols of a token have codes. -/
def Has (book : Codebook) (t : Token) : Prop :=
  0 < book.main.length t.symbols.main ∧
    ∀ d ∈ t.symbols.distance, 0 < book.distance.length d.1

/-- The bits of the tokens of a block, and of its end. -/
def blockBits (book : Codebook) (tokens : List Token) : List Nat :=
  tokens.flatMap book.bits ++ book.main.bits endOfBlock

theorem writes_putToken (book : Codebook) (t : Token) :
    Writes (book.putToken · t) (book.bits t) := by
  simp only [putToken, bits, extraBits]
  generalize t.symbols = s
  obtain ⟨main, extra, count, distance⟩ := s
  have hmain := (book.main.writes_put main).next (BitWriter.writes_put extra count)
  cases distance with
  | none => simpa using hmain
  | some d =>
    rw [← List.append_assoc]
    exact hmain.next ((book.distance.writes_put d.1).next (BitWriter.writes_put d.2.1 d.2.2))

theorem writes_putTokens (book : Codebook) (tokens : Array Token) :
    Writes (book.putTokens · tokens) (book.blockBits tokens.toList) := by
  unfold putTokens
  simp only [← Array.foldl_toList]
  exact (BitWriter.writes_foldl fun t _ => book.writes_putToken t).next
    (book.main.writes_put endOfBlock)

theorem bits_ne_nil (h : book.Has t) : book.bits t ≠ [] := by
  have hmain := h.1
  rw [← Coding.length_bits] at hmain
  exact List.append_ne_nil_of_left_ne_nil (List.ne_nil_of_length_pos hmain) _

theorem symbols_ne (t : Token) : t.symbols.main ≠ endOfBlock := by
  cases t with
  | literal b => exact Nat.ne_of_lt b.toNat_lt
  | copy length distance => exact Nat.ne_of_gt (Nat.lt_add_right _ (Nat.lt_succ_self 256))

/-- The symbols of a token that can be written are among those that are counted. -/
theorem symbols_lt {out out' : Array UInt8} (h : appendToken? out t = some out') :
    t.symbols.main < symbolCount ∧ ∀ d ∈ t.symbols.distance, d.1 < distanceCount := by
  cases t with
  | literal b => exact ⟨Nat.lt_trans b.toNat_lt (by decide), by simp [Token.symbols]⟩
  | copy length distance =>
    rw [appendToken?, Option.ite_none_right_eq_some] at h
    obtain ⟨⟨⟨hmin, hmax⟩, hpos, hreach, -⟩, -⟩ := h
    obtain ⟨lc, l, dc, d, hl, -, hd, -, hsymbols⟩ := exists_symbols_copy hmin hmax hpos hreach
    obtain ⟨hlc, -⟩ := Array.getElem?_eq_some_iff.mp hl
    obtain ⟨hdc, -⟩ := Array.getElem?_eq_some_iff.mp hd
    rw [hsymbols]
    exact ⟨Nat.add_lt_add_left hlc firstLengthSymbol, fun e he => by cases he; exact hdc⟩

/-- A book that covers how often symbols occur in a block has all of them. -/
theorem has_of_covers {tokens : Array Token} {out out' : Array UInt8}
    (h : book.Covers (.ofTokens tokens))
    (hexpand : tokens.toList.foldlM appendToken? out = some out') :
    0 < book.main.length endOfBlock ∧ ∀ t ∈ tokens.toList, book.Has t := by
  obtain ⟨hmain, hdistance⟩ := h
  rw [Frequencies.ofTokens, ← Array.foldl_toList] at hmain hdistance
  simp only [Frequencies.main_foldl, ← tally_cons] at hmain
  simp only [Frequencies.distance_foldl] at hdistance
  have hpos {s : Nat} (hs : s < symbolCount)
      (hmem : s ∈ endOfBlock :: tokens.toList.map (·.symbols.main)) : 0 < book.main.length s :=
    hmain s (by simpa [size_tally] using hs) (tally_pos hmem (by simpa using hs))
  refine ⟨hpos (by decide) List.mem_cons_self, fun t ht => ?_⟩
  obtain ⟨before, behind, happend⟩ := exists_appendToken hexpand ht
  obtain ⟨hbound, hbounds⟩ := symbols_lt happend
  refine ⟨hpos hbound (List.mem_cons_of_mem _ (List.mem_map_of_mem ht)), fun d hd => ?_⟩
  have hmem : d.1 ∈ tokens.toList.filterMap (·.symbols.distance.map (·.1)) :=
    List.mem_filterMap.mpr ⟨t, ht, by rw [Option.mem_def.mp hd]; rfl⟩
  exact hdistance d.1 (by simpa [size_tally] using hbounds d hd)
    (tally_pos hmem (by simpa using hbounds d hd))

theorem fixed_length_pos : (∀ s < symbolCount, 0 < fixed.main.length s) ∧
    ∀ s < distanceCount, 0 < fixed.distance.length s := by
  have hmain : ∀ l ∈ fixed.main.lengths.toList, 0 < l := by decide +kernel
  have hdistance : ∀ l ∈ fixed.distance.lengths.toList, 0 < l := by decide +kernel
  exact ⟨fun s hs => Coding.length_pos_of_forall hmain (Nat.lt_of_lt_of_le hs (by decide +kernel)),
    fun s hs => Coding.length_pos_of_forall hdistance hs⟩

/-- The codes that are known beforehand have all that occurs. -/
theorem fixed_has {out out' : Array UInt8}
    (hexpand : tokens.foldlM appendToken? out = some out') (ht : t ∈ tokens) : fixed.Has t := by
  obtain ⟨before, behind, happend⟩ := exists_appendToken hexpand ht
  obtain ⟨hmain, hdistance⟩ := symbols_lt happend
  exact ⟨fixed_length_pos.1 _ hmain, fun d hd => fixed_length_pos.2 _ (hdistance d hd)⟩

/-! ## Reading tokens -/

/-- What is behind the first symbol of a token tells the token. -/
theorem reads_readToken {out out' : Array UInt8} (h : book.Has t)
    (happend : appendToken? out t = some out') :
    Reads (readToken (.ofLengths book.distance.lengths) t.symbols.main)
      (book.extraBits t.symbols) t := by
  intro r tail hr
  cases t with
  | literal b =>
    have hbyte : b.toNat < 256 := b.toNat_lt
    simp [readToken, Token.symbols, extraBits, numberBits, endOfBlock, hbyte]
  | copy length distance =>
    rw [appendToken?, Option.ite_none_right_eq_some] at happend
    obtain ⟨⟨⟨hmin, hmax⟩, hpos, hreach, -⟩, -⟩ := happend
    obtain ⟨lc, l, dc, d, hl, hlength, hd, hdistance, hsymbols⟩ :=
      exists_symbols_copy hmin hmax hpos hreach
    have hcode : 0 < book.distance.length dc := h.2 _ (by rw [hsymbols]; rfl)
    have hmain : ¬ firstLengthSymbol + lc < endOfBlock := by
      unfold firstLengthSymbol endOfBlock
      omega
    rw [hsymbols] at hr ⊢
    simp only [extraBits, List.append_assoc] at hr ⊢
    have hextra := BitReader.number?_eq hlength.extra_lt hr
    have hr' := BitReader.rest_skip hr
    rw [length_numberBits] at hr'
    have hsymbol := Coding.reads_symbol hcode _ _ hr'
    have hback := BitReader.number?_eq hdistance.extra_lt (BitReader.rest_skip hr')
    simp only [readToken, if_neg hmain, Nat.add_sub_cancel_left, hl, hextra, hsymbol, hd, hback,
      Option.bind_eq_bind, Option.bind_some, Nat.add_sub_cancel' hlength.1,
      Nat.add_sub_cancel' hdistance.1]
    simp only [BitReader.skip_skip, List.length_append, length_numberBits, Nat.add_assoc]

/-- The tokens of a block are read as they were written, and append to the data what they stand
for. -/
theorem readTokens_eq {out out' : Array UInt8} {fuel : Nat} {r : BitReader} {tail : List Nat}
    (hend : 0 < book.main.length endOfBlock) (htokens : ∀ t ∈ tokens, book.Has t)
    (hexpand : tokens.foldlM appendToken? out = some out') (hfuel : tokens.length < fuel)
    (hr : r.rest = book.blockBits tokens ++ tail) :
    readTokens (.ofLengths book.main.lengths) (.ofLengths book.distance.lengths) fuel r out =
      some (out', r.skip (book.blockBits tokens).length) := by
  induction tokens generalizing out fuel r with
  | nil =>
    obtain ⟨fuel, rfl⟩ := Nat.exists_eq_add_of_lt hfuel
    cases hexpand
    rw [readTokens, Coding.reads_symbol hend r tail hr]
    rfl
  | cons t tokens ih =>
    obtain ⟨fuel, rfl⟩ := Nat.exists_eq_add_of_lt hfuel
    have hhas := htokens t List.mem_cons_self
    rw [List.foldlM_cons, Option.bind_eq_bind, Option.bind_eq_some_iff] at hexpand
    obtain ⟨middle, happend, hothers⟩ := hexpand
    simp only [blockBits, List.flatMap_cons, bits, List.append_assoc] at hr ⊢
    have hr' := BitReader.rest_skip hr
    have hsymbol := Coding.reads_symbol hhas.1 r _ hr
    have htoken := reads_readToken hhas happend _ _ hr'
    have hfuel' : tokens.length < (t :: tokens).length + fuel := by
      rw [List.length_cons]
      omega
    have hrest := ih (fun t ht => htokens t (List.mem_cons_of_mem _ ht)) hothers hfuel'
      (by rw [blockBits, List.append_assoc]; exact BitReader.rest_skip hr')
    rw [readTokens, hsymbol]
    simp only [Option.bind_eq_bind, Option.bind_some, if_neg (symbols_ne t), htoken, happend, hrest]
    simp only [BitReader.skip_skip, List.length_append, blockBits, Nat.add_assoc]

end Codebook

end Zipship.Deflate
