import Zipship.Deflate.Encoder
import Zipship.Proofs.Deflate.Header
import Zipship.Proofs.Deflate.Size
import Zipship.Proofs.Deflate.Tokens

/-!
# Compressed data is what it was

What `compress` writes `decompress?` reads. A block is read as it was written, in whichever of the
three ways: `putBlock` says what it writes, and the reader comes from the front of these bits to
their end with the data of the block. Plain bytes start with a whole byte, so both sides have to
agree on where in a byte the block starts. By induction on the blocks all data is read.
-/

namespace Zipship.Deflate

open BitWriter (Writes)

variable {r : BitReader} {tail : List Nat}

/-! ## Plain bytes -/

theorem numberBits_inj {count a b : Nat} (ha : a < 2 ^ count) (hb : b < 2 ^ count)
    (h : numberBits count a = numberBits count b) : a = b := by
  induction count generalizing a b with
  | zero =>
    rw [Nat.pow_zero, Nat.lt_one_iff] at ha hb
    rw [ha, hb]
  | succ count ih =>
    rw [numberBits, numberBits, List.cons.injEq] at h
    have hhalf := ih (by omega) (by omega) h.2
    omega

/-- Bits that begin with those of some bytes are those of bytes that begin with these. -/
theorem exists_bytes_of_bits {b all : Bytes} (h : bytesBits all = bytesBits b ++ tail) :
    ∃ more, all = b ++ more := by
  induction b generalizing all with
  | nil => exact ⟨all, rfl⟩
  | cons x b ih =>
    cases all with
    | nil => simp [bytesBits, numberBits] at h
    | cons y all =>
      simp only [bytesBits, List.flatMap_cons, List.append_assoc] at h
      obtain ⟨hfirst, hothers⟩ := List.append_inj h (by simp)
      obtain ⟨more, rfl⟩ := ih hothers
      have hxy : y = x := UInt8.toNat_inj.mp (numberBits_inj y.toNat_lt x.toNat_lt hfirst)
      exact ⟨more, by rw [hxy, List.cons_append]⟩

theorem drop_bytesBits (b : Bytes) (count : Nat) :
    (bytesBits b).drop (8 * count) = bytesBits (b.drop count) := by
  rcases Nat.le_total count b.length with hle | hle
  · conv_lhs => rw [← List.take_append_drop count b]
    rw [bytesBits, List.flatMap_append]
    exact List.drop_left' (by rw [← bytesBits, length_bytesBits, List.length_take]; omega)
  · rw [List.drop_eq_nil_of_le hle, List.drop_eq_nil_of_le (by rw [length_bytesBits]; omega)]
    rfl

theorem bytes?_eq {b : Bytes} (hpos : r.pos % 8 = 0) (hr : r.rest = bytesBits b ++ tail) :
    r.bytes? b.length = some (b.toArray, r.skip (bytesBits b).length) := by
  obtain ⟨bytes, pos⟩ := r
  obtain ⟨first, rfl⟩ : ∃ first, pos = 8 * first := ⟨pos / 8, by simp only at hpos; omega⟩
  rw [BitReader.rest, drop_bytesBits] at hr
  obtain ⟨more, hmore⟩ := exists_bytes_of_bits hr
  have hfirst : 8 * first / 8 = first := Nat.mul_div_cancel_left _ (by decide)
  have hextract : bytes.extract first (first + b.length) = b.toArray := by
    rw [← Array.toList_inj]
    simp [Array.toList_extract, List.extract, hmore]
  simp only [BitReader.bytes?, hfirst, hextract, List.size_toArray, if_pos, BitReader.skip,
    length_bytesBits, Nat.mul_add]

/-- The bits of plain bytes, with their number in front of them. -/
def plainBits (plain : Bytes) : List Nat :=
  bytesBits (Bytes.le16 plain.length ++ Bytes.le16 (65535 - plain.length) ++ plain)

/-- Plain bytes are read as they were written, behind what fills the last byte. -/
theorem readPlain_eq {fill : List Nat} {plain : Bytes} (hsize : plain.length ≤ 65535)
    (hfill : fill.length = (8 - r.pos % 8) % 8) (hr : r.rest = fill ++ (plainBits plain ++ tail))
    (out : Array UInt8) :
    readPlain r out = some (out ++ plain.toArray, r.skip (fill ++ plainBits plain).length) := by
  have halign : r.align = r.skip fill.length := by
    simp only [BitReader.align, BitReader.skip, hfill]
    congr 1
    omega
  have hpos : (r.skip fill.length).pos % 8 = 0 := by
    simp only [BitReader.skip, hfill]
    omega
  have hr' := BitReader.rest_skip hr
  rw [plainBits, bytesBits, List.flatMap_append, List.append_assoc] at hr'
  have hhead := bytes?_eq hpos hr'
  have hpos' : ((r.skip fill.length).skip (bytesBits (Bytes.le16 plain.length ++
      Bytes.le16 (65535 - plain.length))).length).pos % 8 = 0 := by
    rw [length_bytesBits]
    simp only [BitReader.skip] at hpos ⊢
    omega
  have hplain := bytes?_eq hpos' (BitReader.rest_skip hr')
  have hcount : (Bytes.le16 plain.length ++ Bytes.le16 (65535 - plain.length)).length = 4 := rfl
  rw [hcount] at hhead
  have hfirst : Bytes.readLe ((Bytes.le16 plain.length ++
      Bytes.le16 (65535 - plain.length)).take 2) = plain.length :=
    Bytes.readLe_le16 (Nat.lt_succ_of_le hsize)
  have hsecond : Bytes.readLe ((Bytes.le16 plain.length ++
      Bytes.le16 (65535 - plain.length)).drop 2) = 65535 - plain.length :=
    Bytes.readLe_le16 (by omega)
  simp only [readPlain, halign, hhead, Option.bind_eq_bind, Option.bind_some, hfirst, hsecond,
    if_pos, hplain]
  simp only [BitReader.skip_skip, List.length_append, plainBits, bytesBits, List.flatMap_append,
    Nat.add_assoc]

/-! ## Blocks -/

/-- The bits at the start of a block. -/
def startBits (last : Bool) (kind : Nat) : List Nat := numberBits 1 last.toNat ++ numberBits 2 kind

theorem writes_putBlockStart (last : Bool) (kind : Nat) :
    Writes (putBlockStart · last kind) (startBits last kind) :=
  (BitWriter.writes_put last.toNat 1).next (BitWriter.writes_put kind 2)

/-- A block is read from its start and its body. -/
theorem readBlock_eq {last : Bool} {kind : Nat} {body : List Nat} {out out' : Array UInt8}
    (hkind : kind < 4) (hr : r.rest = startBits last kind ++ (body ++ tail))
    (hbody : readBody kind (r.skip 3) out = some (out', (r.skip 3).skip body.length)) :
    readBlock r out = some ((last, out'), r.skip (startBits last kind ++ body).length) := by
  rw [startBits, List.append_assoc] at hr
  have hlast := BitReader.number?_eq (show last.toNat < 2 ^ 1 from last.toNat_lt) hr
  have hr' := BitReader.rest_skip hr
  rw [length_numberBits] at hr'
  have hkind' := BitReader.number?_eq (show kind < 2 ^ 2 from hkind) hr'
  rw [BitReader.skip_skip] at hkind'
  have hflag : decide (last.toNat = 1) = last := by cases last <;> rfl
  simp only [readBlock, hlast, hkind', hbody, Option.bind_eq_bind, Option.bind_some, hflag]
  simp only [startBits, List.length_append, length_numberBits, BitReader.skip_skip]

/-- The bits are those of a block: wherever they are read from the same place in a byte, the data
comes to be `out'`. -/
def IsBlock (bs : List Nat) (last : Bool) (offset : Nat) (out out' : Array UInt8) : Prop :=
  ∀ (r : BitReader) (tail : List Nat), r.pos % 8 = offset → r.rest = bs ++ tail →
    readBlock r out = some ((last, out'), r.skip bs.length)

theorem isBlock_plain (offset : Nat) (fill : List Nat) (plain : Bytes)
    (hsize : plain.length ≤ 65535) (hfill : fill.length = (8 - (offset + 3) % 8) % 8)
    (last : Bool) (out : Array UInt8) :
    IsBlock (startBits last 0 ++ (fill ++ plainBits plain)) last offset out
      (out ++ plain.toArray) := by
  rintro r tail rfl hr
  rw [List.append_assoc] at hr
  refine readBlock_eq (by decide) hr ?_
  have hr' := BitReader.rest_skip hr
  rw [List.append_assoc] at hr'
  have hplain := readPlain_eq (r := r.skip 3) hsize
    (by rw [hfill, BitReader.skip]; simp only; omega) hr' out
  rw [readBody, if_pos rfl, hplain]

/-- The tokens of a block are no more than the bits that are left. -/
theorem length_lt_fuel {book : Codebook} {tokens : List Token} (htokens : ∀ t ∈ tokens, book.Has t)
    (hr : r.rest = book.blockBits tokens ++ tail) : tokens.length < 8 * r.bytes.size + 1 := by
  have hbits : tokens.length ≤ (tokens.flatMap book.bits).length := by
    clear hr
    induction tokens with
    | nil => exact Nat.zero_le _
    | cons t tokens ih =>
      have hpos := List.length_pos_iff.mpr (Codebook.bits_ne_nil (htokens t List.mem_cons_self))
      have hothers := ih fun t ht => htokens t (List.mem_cons_of_mem _ ht)
      rw [List.flatMap_cons, List.length_append, List.length_cons]
      omega
  have hall := r.length_rest_le
  rw [hr, Codebook.blockBits, List.length_append, List.length_append] at hall
  omega

section Tokens

variable {tokens : List Token} {out out' : Array UInt8} {last : Bool} {offset : Nat}

theorem isBlock_fixed (hexpand : tokens.foldlM appendToken? out = some out') :
    IsBlock (startBits last 1 ++ Codebook.fixed.blockBits tokens) last offset out out' := by
  intro r tail _ hr
  rw [List.append_assoc] at hr
  refine readBlock_eq (by decide) hr ?_
  have hr' : (r.skip 3).rest = _ := BitReader.rest_skip hr
  have htokens : ∀ t ∈ tokens, Codebook.fixed.Has t := fun t ht => Codebook.fixed_has hexpand ht
  have hread := Codebook.readTokens_eq (Codebook.fixed_length_pos.1 _ (by decide)) htokens hexpand
    (length_lt_fuel htokens hr') hr'
  simp only [readBody]
  exact hread

theorem isBlock_own (h : Header) (hend : 0 < h.book.main.length endOfBlock)
    (htokens : ∀ t ∈ tokens, h.book.Has t)
    (hexpand : tokens.foldlM appendToken? out = some out') :
    IsBlock (startBits last 2 ++ (h.headerBits ++ h.book.blockBits tokens)) last offset out
      out' := by
  intro r tail _ hr
  rw [List.append_assoc] at hr
  refine readBlock_eq (by decide) hr ?_
  have hr' : (r.skip 3).rest = _ := BitReader.rest_skip hr
  rw [List.append_assoc] at hr'
  have hheader := h.readHeader_eq hr'
  have hr'' := BitReader.rest_skip hr'
  have hread := Codebook.readTokens_eq hend htokens hexpand (length_lt_fuel htokens hr'') hr''
  rw [BitReader.bytes_skip] at hread
  simp only [readBody, hheader, Option.bind_eq_bind, Option.bind_some, List.length_append,
    ← BitReader.skip_skip]
  exact hread

end Tokens

/-- What `putBlock` writes for tokens is a block of what they append. -/
theorem exists_block {w : BitWriter} (hw : w.Sound) (last : Bool) {tokens : Array Token}
    {out : Array UInt8} {plain : Array UInt8}
    (hexpand : tokens.toList.foldlM appendToken? out = some (out ++ plain)) :
    ∃ bs, ((putBlock w last tokens plain).Sound ∧
        (putBlock w last tokens plain).bits = w.bits ++ bs) ∧
      3 ≤ bs.length ∧ IsBlock bs last w.count out (out ++ plain) := by
  have hstart (kind : Nat) (body : List Nat) : 3 ≤ (startBits last kind ++ body).length := by
    rw [List.length_append]
    exact Nat.le_add_right 3 _
  unfold putBlock
  simp only
  generalize (if tokens.isEmpty = true then 0 else _) = known
  split_ifs with hplain
  · refine ⟨_, ?_, hstart 0 _, isBlock_plain w.count
      (List.replicate ((8 - (w.count + 3) % 8) % 8) 0) plain.toList hplain.1 (by simp) last out⟩
    obtain ⟨hsound, hbits⟩ := writes_putBlockStart last 0 w hw
    have hcount : (putBlockStart w last 0).count = (w.count + 3) % 8 := by
      rw [← BitWriter.length_bits_mod hsound, hbits, List.length_append, Nat.add_mod,
        BitWriter.length_bits_mod hw]
      simp [startBits]
    obtain ⟨hsound', -, hbits'⟩ := BitWriter.bits_putBytes hsound
      ((Bytes.le16 plain.size ++ Bytes.le16 (65535 - plain.size)).toArray ++ plain)
    refine ⟨hsound', ?_⟩
    rw [putPlain, hbits', hbits, hcount]
    simp [plainBits, List.append_assoc]
  · split
    · exact ⟨_, (writes_putBlockStart last 1).next (Codebook.fixed.writes_putTokens tokens) w hw,
        hstart 1 _, isBlock_fixed hexpand⟩
    · rename_i h hown
      obtain ⟨-, hgood⟩ := Option.filter_eq_some_iff.mp hown
      obtain ⟨-, hcovers⟩ := of_decide_eq_true hgood
      obtain ⟨hend, htokens⟩ := Codebook.has_of_covers hcovers hexpand
      exact ⟨_, (writes_putBlockStart last 2).next
        (h.writes_put.next (h.book.writes_putTokens tokens)) w hw, hstart 2 _,
        isBlock_own h hend htokens hexpand⟩

/-! ## All blocks -/

/-- The writer after some more bits is in the place of a byte where a reader is that read them. -/
theorem count_of_bits {w w' : BitWriter} {bs : List Nat} (hw : w.Sound) (hw' : w'.Sound)
    (hbits : w'.bits = w.bits ++ bs) (hpos : r.pos % 8 = w.count) :
    (r.skip bs.length).pos % 8 = w'.count := by
  rw [← BitWriter.length_bits_mod hw', hbits, List.length_append, Nat.add_mod,
    BitWriter.length_bits_mod hw, ← hpos, BitReader.skip, ← Nat.add_mod]

/-- What is left of the tokens is those of the next block, which append the bytes that are next in
the data, and those behind it. -/
theorem exists_plain {data : Array UInt8} {tokens : Array Token} {first : Nat} {out : Array UInt8}
    (hexpand : (tokens.toList.drop first).foldlM appendToken? out = some data) :
    ∃ plain, (tokens.extract first (first + blockTokens)).toList.foldlM appendToken? out =
        some (out ++ plain) ∧
      (tokens.toList.drop (first + blockTokens)).foldlM appendToken? (out ++ plain) = some data ∧
      (tokens.extract first (first + blockTokens)).foldl (fun n t => n + t.size) 0 = plain.size ∧
      data.extract out.size (out.size + plain.size) = plain := by
  have hblock : (tokens.extract first (first + blockTokens)).toList =
      (tokens.toList.drop first).take blockTokens := by
    simp [Array.toList_extract, List.extract]
  have hcut : tokens.toList.drop first = (tokens.extract first (first + blockTokens)).toList ++
      tokens.toList.drop (first + blockTokens) := by
    rw [hblock, ← List.drop_drop, List.take_append_drop]
  rw [hcut, List.foldlM_append, Option.bind_eq_bind, Option.bind_eq_some_iff] at hexpand
  obtain ⟨middle, htokens, hothers⟩ := hexpand
  obtain ⟨plain, rfl, hsize⟩ := exists_append htokens 0
  obtain ⟨rest, rfl, -⟩ := exists_append hothers 0
  rw [Nat.zero_add, Array.foldl_toList] at hsize
  refine ⟨plain, htokens, hothers, hsize.symm, ?_⟩
  rw [← Array.toList_inj]
  simp

/-- Blocks that `putBlocks` writes are read one by one, until all data is there. -/
theorem exists_blocks {data : Array UInt8} {tokens : Array Token} {fuel first : Nat}
    {w : BitWriter} (hw : w.Sound) {out : Array UInt8}
    (hexpand : (tokens.toList.drop first).foldlM appendToken? out = some data)
    (hfuel : tokens.size - first < fuel * blockTokens) :
    ∃ bs, ((putBlocks data tokens fuel first out.size w).Sound ∧
        (putBlocks data tokens fuel first out.size w).bits = w.bits ++ bs) ∧
      ∀ (r : BitReader) (tail : List Nat) (steps : Nat), r.pos % 8 = w.count →
        r.rest = bs ++ tail → bs.length < steps → readBlocks steps r out = some data := by
  induction fuel generalizing first w out with
  | zero => exact absurd hfuel (by rw [Nat.zero_mul]; exact Nat.not_lt_zero _)
  | succ fuel ih =>
    obtain ⟨plain, htokens, hothers, hsize, hplain⟩ := exists_plain hexpand
    rw [putBlocks, hsize, hplain]
    have hcount : (tokens.extract first (first + blockTokens)).size =
        min (first + blockTokens) tokens.size - first := Array.size_extract
    split_ifs with hlast
    · have hdone : tokens.toList.drop (first + blockTokens) = [] := by
        rw [List.drop_eq_nil_iff, Array.length_toList]
        omega
      rw [hdone] at hothers
      cases hothers
      obtain ⟨bs, hwritten, -, hreads⟩ := exists_block hw true htokens
      refine ⟨bs, hwritten, fun r tail steps hpos hr hsteps => ?_⟩
      obtain ⟨steps, rfl⟩ := Nat.exists_eq_add_of_lt hsteps
      rw [readBlocks, hreads r tail hpos hr]
      rfl
    · obtain ⟨bs, ⟨hsound, hbits⟩, hlength, hreads⟩ := exists_block hw false htokens
      have hfuel' : tokens.size - (first + blockTokens) < fuel * blockTokens := by
        rw [Nat.succ_mul] at hfuel
        omega
      obtain ⟨more, ⟨hsound', hbits'⟩, hmore⟩ := ih hsound hothers hfuel'
      rw [Array.size_append] at hsound' hbits'
      refine ⟨bs ++ more, ⟨hsound', by rw [hbits', hbits, List.append_assoc]⟩,
        fun r tail steps hpos hr hsteps => ?_⟩
      rw [List.append_assoc] at hr
      rw [List.length_append] at hsteps
      obtain ⟨steps, rfl⟩ := Nat.exists_eq_add_of_lt (Nat.zero_lt_of_lt hsteps)
      rw [readBlocks, hreads r _ hpos hr]
      exact hmore _ tail _ (count_of_bits hw hsound hbits hpos) (BitReader.rest_skip hr) (by omega)

/-- Blocks of plain bytes are read one by one, until all data is there. -/
theorem readBlocks_plainBlocks {full : Nat} {data : Bytes} (hfull : full = data.length / 65535)
    {steps : Nat} {out : Array UInt8} (hpos : r.pos % 8 = 0)
    (hr : r.rest = bytesBits (plainBlocks full data) ++ tail)
    (hsteps : (bytesBits (plainBlocks full data)).length < steps) :
    readBlocks steps r out = some (out ++ data.toArray) := by
  have hbits (last : Bool) (plain : Bytes) : bytesBits (plainBlock last plain) =
      startBits last 0 ++ (List.replicate 5 0 ++ plainBits plain) := by
    cases last <;> rfl
  induction full generalizing data steps out r with
  | zero =>
    rw [plainBlocks] at hr hsteps
    rw [hbits] at hr
    obtain ⟨steps, rfl⟩ := Nat.exists_eq_add_of_lt hsteps
    have hblock := isBlock_plain 0 (List.replicate 5 0) data (by omega) rfl true out r tail hpos hr
    rw [readBlocks, hblock]
    rfl
  | succ full ih =>
    have hlength : (data.take 65535).length = 65535 := by
      rw [List.length_take]
      omega
    rw [plainBlocks, bytesBits, List.flatMap_append, ← bytesBits, ← bytesBits] at hr hsteps
    rw [List.append_assoc, hbits] at hr
    rw [List.length_append] at hsteps
    obtain ⟨steps, rfl⟩ := Nat.exists_eq_add_of_lt (Nat.zero_lt_of_lt hsteps)
    have hblock := isBlock_plain 0 (List.replicate 5 0) (data.take 65535) (by omega) rfl false out
      r _ hpos hr
    rw [← hbits] at hblock hr
    have hpos' : (r.skip (bytesBits (plainBlock false (data.take 65535))).length).pos % 8 = 0 := by
      rw [length_bytesBits, BitReader.skip]
      simp only
      omega
    rw [Nat.zero_add, readBlocks, hblock]
    have hmore : 0 < (bytesBits (plainBlock false (data.take 65535))).length := by
      rw [length_bytesBits, length_plainBlock]
      omega
    have hothers : readBlocks steps (r.skip (bytesBits (plainBlock false (data.take 65535))).length)
        (out ++ (data.take 65535).toArray) =
          some (out ++ (data.take 65535).toArray ++ (data.drop 65535).toArray) :=
      ih (by rw [List.length_drop]; omega) hpos' (BitReader.rest_skip hr) (by omega)
    rw [Array.append_assoc, List.append_toArray (data.take 65535) (data.drop 65535),
      List.take_append_drop] at hothers
    exact hothers

/-! ## Compressing and decompressing -/

theorem expand?_literals (data : Array UInt8) :
    expand? (data.map Token.literal).toList = some data := by
  have hall (l : Bytes) (out : Array UInt8) :
      (l.map Token.literal).foldlM appendToken? out = some (out ++ l.toArray) := by
    induction l generalizing out with
    | nil => simp
    | cons b l ih =>
      rw [List.map_cons, List.foldlM_cons, appendToken?, Option.bind_eq_bind, Option.bind_some, ih]
      simp
  rw [expand?, Array.toList_map, hall]
  simp

/-- The tokens of some data stand for it. -/
theorem expand?_tokensOf (data : Array UInt8) : expand? (tokensOf data).toList = some data := by
  unfold tokensOf
  simp only
  split_ifs with hfound
  · exact hfound
  · exact expand?_literals data

theorem rest_start (b : Bytes) : (BitReader.mk b.toArray 0).rest = bytesBits b := rfl

theorem decompress?_eq {packed data : Bytes} {bs : List Nat} (hbits : bytesBits packed = bs ++ tail)
    (hreads : ∀ steps, bs.length < steps →
      readBlocks steps ⟨packed.toArray, 0⟩ #[] = some data.toArray) :
    decompress? packed = some data := by
  have hlength := congrArg List.length hbits
  rw [length_bytesBits, List.length_append] at hlength
  rw [decompress?, hreads _ (by rw [List.size_toArray]; omega)]
  rfl

/-- What was compressed is what it was when it is decompressed. -/
theorem decompress?_compress (data : Bytes) : decompress? (compress data) = some data := by
  unfold compress
  simp only
  split_ifs with hshort
  · have hexpand : ((tokensOf data.toArray).toList.drop 0).foldlM appendToken? #[] =
        some data.toArray := expand?_tokensOf data.toArray
    have hfuel : (tokensOf data.toArray).size - 0 <
        ((tokensOf data.toArray).size / blockTokens + 1) * blockTokens := by
      rw [Nat.sub_zero, Nat.mul_comm]
      exact Nat.lt_mul_div_succ _ (by decide)
    obtain ⟨bs, ⟨hsound, hbits⟩, hreads⟩ :=
      exists_blocks BitWriter.sound_empty hexpand hfuel
    have hpacked := BitWriter.bits_toBytes hsound
    rw [hbits, BitWriter.bits_empty, List.nil_append] at hpacked
    exact decompress?_eq hpacked fun steps hsteps =>
      hreads ⟨_, 0⟩ _ steps rfl ((rest_start _).trans hpacked) hsteps
  · have hpacked := (List.append_nil (bytesBits (plainBlocks (data.length / 65535) data))).symm
    refine decompress?_eq hpacked fun steps hsteps => ?_
    rw [readBlocks_plainBlocks rfl rfl ((rest_start _).trans hpacked) hsteps, Array.empty_append]

end Zipship.Deflate
