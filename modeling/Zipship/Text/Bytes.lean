/-!
# Byte strings

File contents, archives and digests are lists of bytes. `ofString` gives the UTF-8 bytes of a text,
`toString?` reads them back when they are valid UTF-8, and the little-endian fields of binary
formats are `le16`, `le32` and `le64`.
-/

namespace Zipship

/-- A sequence of bytes: the content of a file, or a part of it. -/
abbrev Bytes := List UInt8

namespace Bytes

/-- The UTF-8 bytes of a text. -/
def ofString (s : String) : Bytes := s.toUTF8.data.toList

/-- A text stands for its bytes where bytes are asked for. -/
instance : Coe String Bytes := ⟨ofString⟩

/-- The text whose UTF-8 bytes these are, if they are valid UTF-8. -/
def toString? (b : Bytes) : Option String := String.fromUTF8? ⟨b.toArray⟩

/-- A 16-bit number as two bytes, low byte first; higher bits are dropped. -/
def le16 (n : Nat) : Bytes := [UInt8.ofNat n, UInt8.ofNat (n / 256)]

/-- A 32-bit number as four bytes, low byte first; higher bits are dropped. -/
def le32 (n : Nat) : Bytes := le16 n ++ le16 (n / 65536)

/-- A 64-bit number as eight bytes, low byte first; higher bits are dropped. -/
def le64 (n : Nat) : Bytes := le32 n ++ le32 (n / 4294967296)

/-- The number whose bytes these are, low byte first. -/
def readLe : Bytes → Nat
  | [] => 0
  | b :: rest => b.toNat + 256 * readLe rest

theorem length_le16 (n : Nat) : (le16 n).length = 2 := rfl

theorem readLe_le16_append (n : Nat) (b : Bytes) :
    readLe (le16 n ++ b) = n % 65536 + 65536 * readLe b := by
  simp only [le16, List.cons_append, List.nil_append, readLe, UInt8.toNat_ofNat']
  omega

/-- A field of two bytes is read as the number that it holds, if it is not greater than that. -/
theorem readLe_le16 {n : Nat} (h : n < 65536) : readLe (le16 n) = n := by
  have hread := readLe_le16_append n []
  rw [List.append_nil, readLe, Nat.mod_eq_of_lt h] at hread
  exact hread

theorem readLe_le32 {n : Nat} (h : n < 4294967296) : readLe (le32 n) = n := by
  rw [le32, readLe_le16_append, readLe_le16 (by omega)]
  omega

/-- The position of the first occurrence of `pattern`. -/
def find? (pattern : Bytes) : Bytes → Option Nat
  | [] => if pattern.isEmpty then some 0 else none
  | b :: rest =>
    if pattern.isPrefixOf (b :: rest) then some 0 else (find? pattern rest).map (· + 1)

/-- Consecutive pieces of `size` bytes, the last one possibly shorter; `fuel` bounds their number.
-/
def piecesAux (size : Nat) : Nat → Bytes → List Bytes
  | 0, _ => []
  | _ + 1, [] => []
  | fuel + 1, b => b.take size :: piecesAux size fuel (b.drop size)

/-- The bytes cut into consecutive pieces of `size` bytes, the last one possibly shorter. -/
def pieces (size : Nat) (b : Bytes) : List Bytes := piecesAux size b.length b

theorem flatten_piecesAux {size : Nat} (hs : 0 < size) :
    ∀ (fuel : Nat) (b : Bytes), b.length ≤ fuel → (piecesAux size fuel b).flatten = b
  | 0, b, h => by
    have : b = [] := List.eq_nil_of_length_eq_zero (Nat.le_zero.mp h)
    simp [piecesAux, this]
  | _ + 1, [], _ => by simp [piecesAux]
  | fuel + 1, x :: b, h => by
    have hd : ((x :: b).drop size).length ≤ fuel := by
      simp only [List.length_drop, List.length_cons] at *
      omega
    simp only [piecesAux, List.flatten_cons, flatten_piecesAux hs fuel _ hd,
      List.take_append_drop]

/-- Cutting into pieces loses nothing. -/
theorem flatten_pieces {size : Nat} (hs : 0 < size) (b : Bytes) :
    (pieces size b).flatten = b :=
  flatten_piecesAux hs _ b (Nat.le_refl _)

end Bytes

end Zipship
