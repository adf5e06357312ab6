import Mathlib.Tactic.SplitIfs
import Zipship.Proofs.Text.Encoding
import Zipship.Zip.Writer

/-!
# How long the records of an archive are

Apart from its name, the head of a local record has thirty bytes, and twelve more where the record
is so far behind that its position needs a longer field. A central record has forty-six and twelve.
-/

namespace Zipship

@[simp] theorem Bytes.length_le32 (n : Nat) : (Bytes.le32 n).length = 4 := rfl

@[simp] theorem Bytes.length_le64 (n : Nat) : (Bytes.le64 n).length = 8 := rfl

namespace Zip

variable {e : Entry} {m : Measures} {d : Draft} {offset : Nat}

theorem length_longOffset_le (offset : Nat) : (longOffset offset).length ≤ 12 := by
  unfold longOffset
  split_ifs <;> simp [Bytes.length_le16]

theorem length_localFields (e : Entry) (m : Measures) (offset : Nat) :
    (localFields e m offset).flatten.length = 30 := rfl

theorem length_centralFields (e : Entry) (m : Measures) (offset : Nat) :
    (centralFields e m offset).flatten.length = 46 := rfl

theorem length_localHead (e : Entry) (m : Measures) (offset : Nat) :
    (localHead e m offset).length = 30 + e.name.utf8ByteSize + (longOffset offset).length := by
  rw [localHead, List.length_append, length_localFields, List.length_append, Bytes.length_ofString,
    Nat.add_assoc]

theorem length_centralRecord (e : Entry) (m : Measures) (offset : Nat) :
    (centralRecord e m offset).length =
      46 + e.name.utf8ByteSize + (longOffset offset).length := by
  rw [centralRecord, List.length_append, length_centralFields, List.length_append,
    Bytes.length_ofString, Nat.add_assoc]

theorem length_endRecord (entries directorySize directoryOffset : Nat) :
    (endRecord entries directorySize directoryOffset).length = 22 := rfl

theorem length_opened_le (d : Draft) (e : Entry) :
    (d.opened e).length ≤ d.records.length + 42 + e.name.utf8ByteSize := by
  have hlong := length_longOffset_le d.records.length
  rw [Draft.opened, List.length_append, length_localHead]
  omega

theorem length_records_add_le (d : Draft) (e : Entry) : (d.add e).records.length ≤
    d.records.length + 42 + e.name.utf8ByteSize + e.body.packed.length := by
  have hlong := length_longOffset_le d.records.length
  rw [Draft.add, Draft.localRecord, List.length_append, List.length_append, length_localHead]
  omega

end Zip

end Zipship
