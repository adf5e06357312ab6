import Zipship.Proofs.Deflate.RoundTrip
import Zipship.Proofs.Zip.Size
import Zipship.Zip.Reader

/-!
# An archive holds its entries

What `encode` writes `read?` reads, as long as the fields of the first version of the format can
hold the numbers: the archive of some entries is read as these entries, with their names, kinds,
permissions and contents. A record is found where the records before it end, and a field of it at a
fixed distance behind its start.
-/

namespace Zipship.Zip

/-- What is read of an entry. -/
def Item.ofEntry (e : Entry) : Item :=
  ⟨e.name, e.body.method, e.body.mode, (Digest.crc32 e.body.content).toNat, firstDate, 0,
    e.body.content⟩

/-! ## Fields of a record -/

/-- A record is in an archive at a position. -/
def HasAt (b : Array UInt8) (pos : Nat) (record : Bytes) : Prop :=
  ∃ front back, b.toList = front ++ (record ++ back) ∧ front.length = pos

section Records

variable {b : Array UInt8} {pos : Nat} {record more : Bytes}

theorem HasAt.left (h : HasAt b pos (record ++ more)) : HasAt b pos record := by
  obtain ⟨front, back, hb, hpos⟩ := h
  exact ⟨front, more ++ back, by rw [hb, List.append_assoc], hpos⟩

theorem HasAt.right (h : HasAt b pos (record ++ more)) : HasAt b (pos + record.length) more := by
  obtain ⟨front, back, hb, rfl⟩ := h
  exact ⟨front ++ record, back, by rw [hb, List.append_assoc, List.append_assoc],
    List.length_append⟩

theorem HasAt.extract_eq (h : HasAt b pos record) :
    (b.extract pos (pos + record.length)).toList = record := by
  obtain ⟨front, back, hb, rfl⟩ := h
  rw [Array.toList_extract, hb]
  simp [List.extract]

theorem HasAt.le_size (h : HasAt b pos record) : pos + record.length ≤ b.size := by
  obtain ⟨front, back, hb, rfl⟩ := h
  rw [← Array.length_toList, hb, List.length_append, List.length_append]
  omega

theorem HasAt.hasMark (h : HasAt b pos record) : hasMark record b pos = true := by
  rw [Zip.hasMark, h.extract_eq]
  exact decide_eq_true rfl

theorem field_le16 {n : Nat} (h : HasAt b pos (Bytes.le16 n)) (hn : n < 65536) :
    field b pos 2 = n := by
  have hextract := h.extract_eq
  rw [Bytes.length_le16] at hextract
  rw [field, hextract, Bytes.readLe_le16 hn]

theorem field_le32 {n : Nat} (h : HasAt b pos (Bytes.le32 n)) (hn : n < 4294967296) :
    field b pos 4 = n := by
  have hextract := h.extract_eq
  rw [Bytes.length_le32] at hextract
  rw [field, hextract, Bytes.readLe_le32 hn]

/-- A field of a record is behind the fields before it. -/
theorem HasAt.field {fields : List Bytes} (h : HasAt b pos fields.flatten) (i : Nat)
    {part : Bytes} (hpart : fields[i]? = some part) :
    HasAt b (pos + (fields.take i).flatten.length) part := by
  obtain ⟨hi, rfl⟩ := List.getElem?_eq_some_iff.mp hpart
  have hsplit : fields.flatten =
      (fields.take i).flatten ++ (fields[i] ++ (fields.drop (i + 1)).flatten) := by
    rw [← List.flatten_cons, ← List.drop_eq_getElem_cons hi, ← List.flatten_append,
      List.take_append_drop]
  rw [hsplit] at h
  exact h.right.left

end Records

/-! ## Records of an entry -/

theorem unpack?_packed (body : Body) : unpack? body.method body.packed = some body.content := by
  cases body with
  | directory => rfl
  | file content executable => exact Deflate.decompress?_compress content

theorem mode_lt (body : Body) : body.mode < 65536 := by
  cases body with
  | directory => decide
  | file content executable =>
    have hmode : ∀ x, (Body.file content x).mode < 65536 := fun x => by
      cases x
      · exact (by decide : 0o100644 < 65536)
      · exact (by decide : 0o100755 < 65536)
    exact hmode executable

section Entries

variable {b : Array UInt8} {e : Entry} {offset pos : Nat}

/-- The content of an entry is read from its local record. -/
theorem content?_eq {m : Measures} (hname : e.name.utf8ByteSize < 65536)
    (h : HasAt b offset (localHead e m offset ++ e.body.packed)) :
    content? b e.body.method e.body.packed.length offset = some e.body.content := by
  have hlong := length_longOffset_le offset
  have hfields : HasAt b offset (localFields e m offset).flatten := h.left.left
  have hmark : hasMark localMark b offset = true := (hfields.field 0 rfl).hasMark
  have hnameSize : field b (offset + 26) 2 = e.name.utf8ByteSize :=
    field_le16 (hfields.field 9 rfl) hname
  have hlongSize : field b (offset + 28) 2 = (longOffset offset).length :=
    field_le16 (hfields.field 10 rfl) (by omega)
  have hpacked := h.right
  rw [length_localHead, ← Nat.add_assoc, ← Nat.add_assoc] at hpacked
  simp only [content?, hnameSize, hlongSize]
  rw [if_pos ⟨hmark, hpacked.le_size⟩, hpacked.extract_eq, unpack?_packed]

/-- What the fields of a central record hold. -/
structure Central (b : Array UInt8) (pos : Nat) (e : Entry) (m : Measures) (offset : Nat) :
    Prop where
  mark : hasMark centralMark b pos = true
  method : field b (pos + 10) 2 = e.body.method
  time : field b (pos + 12) 2 = 0
  date : field b (pos + 14) 2 = firstDate
  crc : field b (pos + 16) 4 = m.crc
  packedSize : field b (pos + 20) 4 = m.packedSize
  nameSize : field b (pos + 28) 2 = e.name.utf8ByteSize
  longSize : field b (pos + 30) 2 = (longOffset offset).length
  commentSize : field b (pos + 32) 2 = 0
  mode : field b (pos + 38) 4 = e.body.mode * 65536
  offset : field b (pos + 42) 4 = min offset maxSize
  name : (b.extract (pos + 46) (pos + 46 + e.name.utf8ByteSize)).toList = Bytes.ofString e.name

theorem central_of_hasAt {m : Measures} (hname : e.name.utf8ByteSize < 65536)
    (hcrc : m.crc < 4294967296) (hsize : m.packedSize ≤ maxSize)
    (h : HasAt b pos (centralRecord e m offset)) : Central b pos e m offset := by
  have hlong := length_longOffset_le offset
  have hlength := length_centralRecord e m offset
  have hmode := mode_lt e.body
  have hmethod : e.body.method < 65536 := by cases e.body <;> exact Nat.lt_of_sub_eq_succ rfl
  have hfields : HasAt b pos (centralFields e m offset).flatten := h.left
  have hnameBytes : HasAt b (pos + 46) (Bytes.ofString e.name) := h.right.left
  exact
    { mark := (hfields.field 0 rfl).hasMark
      method := field_le16 (hfields.field 4 rfl) hmethod
      time := field_le16 (hfields.field 5 rfl) (by decide)
      date := field_le16 (hfields.field 6 rfl) (by decide)
      crc := field_le32 (hfields.field 7 rfl) hcrc
      packedSize := field_le32 (hfields.field 8 rfl) (Nat.lt_succ_of_le hsize)
      nameSize := field_le16 (hfields.field 10 rfl) hname
      longSize := field_le16 (hfields.field 11 rfl) (by omega)
      commentSize := field_le16 (hfields.field 12 rfl) (by decide)
      mode := field_le32 (hfields.field 15 rfl) (by omega)
      offset := field_le32 (hfields.field 16 rfl)
        (Nat.lt_succ_of_le (Nat.min_le_right _ _))
      name := by
        have hextract := hnameBytes.extract_eq
        rwa [Bytes.length_ofString] at hextract }

/-- An entry is read from its records, and the next central record is behind its own. -/
theorem item?_eq {m : Measures} (hm : m = .ofBody e.body e.body.packed)
    (hname : e.name.utf8ByteSize < 65536) (hoffset : offset ≤ maxSize)
    (hsize : e.body.packed.length ≤ maxSize)
    (hlocal : HasAt b offset (localHead e m offset ++ e.body.packed))
    (h : HasAt b pos (centralRecord e m offset)) :
    item? b pos = some (.ofEntry e, pos + (centralRecord e m offset).length) := by
  have hcrc : m.crc = (Digest.crc32 e.body.content).toNat := by rw [hm, Measures.ofBody]
  have hpacked : m.packedSize = e.body.packed.length := by rw [hm, Measures.ofBody]
  have hcontent := content?_eq hname hlocal
  have hle := h.le_size
  have hfields := central_of_hasAt hname
    (by rw [hcrc]; exact (Digest.crc32 e.body.content).toNat_lt) (by rw [hpacked]; exact hsize) h
  have hmode : e.body.mode * 65536 / 65536 = e.body.mode := Nat.mul_div_cancel _ (by decide)
  have hnext : pos + 46 + e.name.utf8ByteSize + (longOffset offset).length + 0 =
      pos + (centralRecord e m offset).length := by
    rw [length_centralRecord]
    omega
  simp only [item?, hfields.method, hfields.crc, hfields.nameSize, hfields.longSize,
    hfields.commentSize, hfields.packedSize, hfields.offset, Nat.min_eq_left hoffset,
    hfields.name, Bytes.toString?_ofString, hpacked, hcontent, hfields.mode, hfields.date,
    hfields.time, hmode, hnext, Option.bind_eq_bind, Option.bind_some]
  rw [if_pos ⟨hfields.mark, hle, hcrc.symm⟩, hcrc]
  rfl

end Entries

/-! ## All entries -/

/-- Entries are added behind those that are there. -/
theorem exists_foldl_add (entries : List Entry) (d : Draft) :
    (∃ records, (entries.foldl Draft.add d).records = d.records ++ records) ∧
      (∃ directory, (entries.foldl Draft.add d).directory = d.directory ++ directory) ∧
      (entries.foldl Draft.add d).names.length = d.names.length + entries.length := by
  induction entries generalizing d with
  | nil => exact ⟨⟨[], (List.append_nil _).symm⟩, ⟨[], (List.append_nil _).symm⟩, rfl⟩
  | cons e entries ih =>
    obtain ⟨⟨records, hrecords⟩, ⟨directory, hdirectory⟩, hnames⟩ := ih (d.add e)
    refine ⟨⟨_, hrecords.trans (List.append_assoc _ _ _)⟩,
      ⟨_, hdirectory.trans (List.append_assoc _ _ _)⟩, ?_⟩
    rw [List.foldl_cons, hnames, Draft.add, List.length_append, List.length_singleton,
      List.length_cons, Nat.add_assoc, Nat.add_comm 1]

/-- The entries that are added to a draft are read from the central records behind its own. -/
theorem items?_eq {b : Array UInt8} {base : Nat} {entries : List Entry} {d : Draft}
    (hnames : ∀ e ∈ entries, e.name.utf8ByteSize < 65536)
    (hsize : (entries.foldl Draft.add d).records.length ≤ maxSize)
    (hrecords : HasAt b 0 (entries.foldl Draft.add d).records)
    (hdirectory : HasAt b base (entries.foldl Draft.add d).directory) :
    items? b entries.length (base + d.directory.length) = some (entries.map .ofEntry) := by
  induction entries generalizing d with
  | nil => rfl
  | cons e entries ih =>
    rw [List.foldl_cons] at hsize hrecords hdirectory
    have hothers := ih (fun e' he' => hnames e' (List.mem_cons_of_mem _ he')) hsize hrecords
      hdirectory
    obtain ⟨⟨records, hr⟩, ⟨directory, hd⟩, -⟩ := exists_foldl_add entries (d.add e)
    rw [hr, Draft.add, List.append_assoc] at hrecords
    rw [hd, Draft.add, List.append_assoc] at hdirectory
    rw [hr, Draft.add, Draft.localRecord, List.length_append, List.length_append,
      List.length_append] at hsize
    have hlocal := hrecords.right.left
    rw [Nat.zero_add] at hlocal
    have hitem := item?_eq rfl (hnames e List.mem_cons_self) (by omega) (by omega) hlocal
      hdirectory.right.left
    rw [Draft.add, List.length_append, ← Nat.add_assoc] at hothers
    rw [List.length_cons, items?, hitem]
    simp only [Option.bind_eq_bind, Option.bind_some, hothers]
    rfl

/-- The end record is the last one, and says where the directory is. -/
theorem read?_eq_items? {b : Array UInt8} {pos count directorySize directoryOffset : Nat}
    (hcount : count ≤ maxCount) (hoffset : directoryOffset ≤ maxSize)
    (h : HasAt b pos (endRecord count directorySize directoryOffset)) (hsize : b.size = pos + 22) :
    read? b = items? b count directoryOffset := by
  have hmark : hasMark endMark b pos = true := (h.field 0 rfl).hasMark
  have hlast : lastMark? endMark b (b.size - 21) = some pos := by
    rw [hsize, show pos + 22 - 21 = pos + 1 by omega, lastMark?, if_pos hmark]
  have hentries : field b (pos + 10) 2 = min count maxCount :=
    field_le16 (h.field 4 rfl) (Nat.lt_succ_of_le (Nat.min_le_right _ _))
  have hdirectory : field b (pos + 16) 4 = min directoryOffset maxSize :=
    field_le32 (h.field 6 rfl) (Nat.lt_succ_of_le (Nat.min_le_right _ _))
  rw [read?, hlast, Option.bind_eq_bind, Option.bind_some, hentries, hdirectory,
    Nat.min_eq_left hcount, Nat.min_eq_left hoffset]

/-- **The archive of some entries is read as these entries**, if its fields can hold how many there
are, how long their names are and where their records end. -/
theorem read?_encode {entries : List Entry} (hcount : entries.length ≤ maxCount)
    (hnames : ∀ e ∈ entries, e.name.utf8ByteSize < 65536)
    (hsize : (encode entries).length ≤ maxSize) :
    read? (encode entries).toArray = some (entries.map .ofEntry) := by
  replace hsize : (entries.foldl Draft.add .empty).records.length ≤ maxSize := by
    rw [encode, Draft.close, List.length_append, List.length_append] at hsize
    omega
  obtain ⟨-, -, hlength⟩ := exists_foldl_add entries .empty
  rw [show Draft.empty.names.length = 0 from rfl, Nat.zero_add] at hlength
  have hitems (b : Array UInt8) := @items?_eq b (entries.foldl Draft.add .empty).records.length
    entries .empty hnames hsize
  rw [encode, Draft.close]
  generalize entries.foldl Draft.add .empty = d at hsize hlength hitems ⊢
  obtain ⟨front, hending⟩ : ∃ front, ending d.names.length d.directory.length d.records.length =
      front ++ endRecord d.names.length d.directory.length d.records.length := by
    unfold ending
    split_ifs
    · exact ⟨[], rfl⟩
    · exact ⟨_, rfl⟩
  rw [hending]
  have hrecords : HasAt (d.records ++ d.directory ++ (front ++ endRecord d.names.length
      d.directory.length d.records.length)).toArray 0 (d.records ++ (d.directory ++ (front ++
        endRecord d.names.length d.directory.length d.records.length))) :=
    ⟨[], [], by simp, rfl⟩
  have hdirectory := hrecords.right
  rw [Nat.zero_add] at hdirectory
  have hend := hdirectory.right.right
  have hread := read?_eq_items? (by rw [hlength]; exact hcount) hsize hend
    (by simp [length_endRecord, Nat.add_assoc])
  have hall := hitems _ hrecords.left hdirectory.left
  rw [← hlength] at hall
  rw [hread]
  exact hall

end Zipship.Zip
