import Mathlib.Tactic.SplitIfs
import Zipship.Deflate.Encoder

/-!
# How long compressed data gets

Compressing makes nothing much longer: a block of plain bytes has five more, and there are no more
blocks than there are full ones of single bytes, and one.
-/

namespace Zipship.Deflate

theorem length_plainBlock (last : Bool) (plain : Bytes) :
    (plainBlock last plain).length = plain.length + 5 := by
  simp only [plainBlock, List.length_cons, List.length_append, Bytes.length_le16]
  omega

theorem length_plainBlocks (full : Nat) (data : Bytes) :
    (plainBlocks full data).length = data.length + 5 * (full + 1) := by
  induction full generalizing data with
  | zero => rw [plainBlocks, length_plainBlock]
  | succ full ih =>
    rw [plainBlocks, List.length_append, length_plainBlock, ih, List.length_take, List.length_drop]
    omega

theorem length_compress_le (data : Bytes) :
    (compress data).length ≤ data.length + 5 * (data.length / blockTokens + 1) := by
  unfold compress
  simp only
  split_ifs with hshort
  · exact hshort
  · rw [length_plainBlocks]
    unfold blockTokens
    omega

end Zipship.Deflate
