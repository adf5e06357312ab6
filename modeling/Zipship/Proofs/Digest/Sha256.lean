import Mathlib.Tactic.Common
import Zipship.Digest.File

/-!
# Digests of messages that arrive in parts

Mixing in whole blocks may stop anywhere and go on later with the bytes that were left
(`mixBlocks_append`). So a hasher is in a state that depends on the bytes so far and not on the
parts in which they came (`Hasher.after`, `foldl_update`), and its digest is that of the whole
message (`hashPieces_eq`). Hashing a file gives the digest of its content (`hashFile_ok`).
-/

namespace Zipship.Digest

/-- One block at a time, as long as there is one. -/
theorem mixBlocks_eq (s : Words) (b : Bytes) : mixBlocks s b =
    if b.length < blockSize then (s, b)
    else mixBlocks (s.mix (b.take blockSize)) (b.drop blockSize) := by
  unfold mixBlocks
  by_cases hlt : b.length < blockSize
  · rw [if_pos hlt, Nat.div_eq_of_lt hlt]
    rfl
  · have hfuel : b.length / blockSize = (b.drop blockSize).length / blockSize + 1 := by
      rw [List.length_drop]
      exact Nat.div_eq_sub_div (by decide) (Nat.not_lt.mp hlt)
    have hblock : ¬ (b.take blockSize).length < blockSize := by
      rw [List.length_take]
      omega
    rw [if_neg hlt, hfuel, mixBlocksAux, if_neg hblock]

/-- Mixing may stop anywhere, and go on with the bytes that were left. -/
theorem mixBlocks_append (s : Words) (a b : Bytes) :
    mixBlocks s (a ++ b) = mixBlocks (mixBlocks s a).1 ((mixBlocks s a).2 ++ b) := by
  induction hlen : a.length using Nat.strongRecOn generalizing s a with
  | _ len ih =>
    rw [mixBlocks_eq s a]
    by_cases hlt : a.length < blockSize
    · rw [if_pos hlt]
    · have hle : blockSize ≤ a.length := Nat.not_lt.mp hlt
      have hwhole : ¬ (a ++ b).length < blockSize := by
        rw [List.length_append]
        omega
      rw [if_neg hlt, mixBlocks_eq s (a ++ b), if_neg hwhole, List.take_append_of_le_length hle,
        List.drop_append_of_le_length hle]
      refine ih (a.drop blockSize).length ?_ _ _ rfl
      rw [List.length_drop, ← hlen]
      exact Nat.sub_lt (Nat.lt_of_lt_of_le (by decide) hle) (by decide)

/-- A hasher that has taken in these bytes. -/
def Hasher.after (taken : Bytes) : Hasher :=
  ⟨(mixBlocks .initial taken).1, (mixBlocks .initial taken).2, taken.length⟩

theorem update_after (taken part : Bytes) :
    (Hasher.after taken).update part = .after (taken ++ part) := by
  rw [Hasher.after, Hasher.after, mixBlocks_append .initial taken part, List.length_append]
  rfl

theorem digest_after (taken : Bytes) : (Hasher.after taken).digest = sha256 taken := by
  rw [sha256, mixBlocks_append]
  rfl

/-- Parts that arrive one after another leave a hasher as their bytes do in one. -/
theorem foldl_update (taken : Bytes) (parts : List Bytes) :
    parts.foldl Hasher.update (.after taken) = .after (taken ++ parts.flatten) := by
  induction parts generalizing taken with
  | nil => rw [List.flatten_nil, List.append_nil, List.foldl_nil]
  | cons part parts ih =>
    rw [List.foldl_cons, update_after, ih, List.flatten_cons, List.append_assoc]

/-- The digest of a message does not depend on its parts. -/
theorem hashPieces_eq (pieces : List Bytes) : hashPieces pieces = hex (sha256 pieces.flatten) := by
  have hfold := foldl_update [] pieces
  rw [List.nil_append] at hfold
  rw [hashPieces, ← digest_after, ← hfold]
  rfl

/-- The digest of a file that can be read is that of its content. -/
theorem hashFile_of_read {t : Tree} {cwd : Loc} {p : Path} {content : Bytes}
    (hread : t.read cwd p = .ok content) : hashFile t cwd p = .ok (hex (sha256 content)) := by
  have hpieces := hashPieces_eq (Bytes.pieces readSize content)
  rw [Bytes.flatten_pieces (by decide)] at hpieces
  rw [hashFile, hread, ← hpieces]
  rfl

theorem hashFile_ok {t : Tree} {cwd : Loc} {p : Path} {digest : String}
    (hash : hashFile t cwd p = .ok digest) :
    ∃ content, t.read cwd p = .ok content ∧ digest = hex (sha256 content) := by
  cases hread : t.read cwd p with
  | error e =>
    rw [hashFile, hread] at hash
    cases hash
  | ok content =>
    rw [hashFile_of_read hread] at hash
    exact ⟨content, rfl, (Except.ok.inj hash).symm⟩

end Zipship.Digest
