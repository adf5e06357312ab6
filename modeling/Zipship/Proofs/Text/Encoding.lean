import Mathlib.Tactic.Common
import Zipship.Text.Shown

/-!
# The bytes of a text

A text is a row of characters, and its bytes are those of its characters (`ofString_eq_flatMap`).
Different texts have different bytes (`ofString_inj`), from which the text is read back
(`toString?_eq_some_iff`) and of which it is what is shown (`shown_ofString`). A byte below 128
stands for itself: it is among the bytes of a text just if the text has that character
(`mem_ofString_iff`).
-/

namespace Zipship.Bytes

variable {s t : String} {c : Char} {b : UInt8} {bs rest : Bytes}

theorem ofString_append (s t : String) : ofString (s ++ t) = ofString s ++ ofString t := by
  simp [ofString]

/-- The bytes of a text are those of its characters. -/
theorem ofString_eq_flatMap : ofString s = s.toList.flatMap String.utf8EncodeChar := by
  have h : s.toByteArray = s.toList.utf8Encode := String.utf8Encode_toList.symm
  simp [ofString, h, List.utf8Encode]

theorem length_ofString (s : String) : (ofString s).length = s.utf8ByteSize := by
  rw [ofString, Array.length_toList]
  rfl

theorem ofString_inj : ofString s = ofString t ↔ s = t := by
  refine ⟨fun h => String.toByteArray_inj.mp (ByteArray.ext (Array.toList_inj.mp h)), ?_⟩
  rintro rfl
  rfl

@[simp] theorem ofString_eq_nil_iff : ofString s = [] ↔ s = "" := by
  have h : ofString "" = [] := rfl
  rw [← h, ofString_inj]

/-- The text is read back from its bytes, and from no others. -/
theorem toString?_eq_some_iff : bs.toString? = some s ↔ ofString s = bs := by
  unfold toString? String.fromUTF8?
  split_ifs with hvalid
  · rw [Option.some_inj]
    constructor
    · rintro rfl
      rfl
    · rintro rfl
      exact String.toByteArray_inj.mp (ByteArray.ext (by simp [ofString, String.fromUTF8]))
  · refine iff_of_false (by simp) ?_
    rintro rfl
    exact hvalid (by simpa [ofString] using s.isValidUTF8)

@[simp] theorem toString?_ofString (s : String) : (ofString s).toString? = some s :=
  toString?_eq_some_iff.mpr rfl

/-! ## What is shown of a text -/

/-- The bytes of a character begin with that character. -/
theorem char?_utf8EncodeChar (c : Char) (rest : Bytes) :
    char? (String.utf8EncodeChar c ++ rest) = some c := by
  have hlength : (String.utf8EncodeChar c).length ≤ 4 := by
    rw [String.length_utf8EncodeChar]
    exact c.utf8Size_le_four
  unfold char?
  rw [List.take_append, List.take_of_length_le hlength, List.toByteArray_append]
  exact ByteArray.utf8DecodeChar?_utf8EncodeChar_append

theorem shownChars_flatMap : ∀ {cs : List Char} {fuel : Nat},
    (cs.flatMap String.utf8EncodeChar).length ≤ fuel →
      shownChars fuel (cs.flatMap String.utf8EncodeChar) = cs
  | [], 0, _ | [], _ + 1, _ => rfl
  | c :: cs, fuel, hfuel => by
    have hchar := char?_utf8EncodeChar c (cs.flatMap String.utf8EncodeChar)
    have hdrop : (String.utf8EncodeChar c ++ cs.flatMap String.utf8EncodeChar).drop c.utf8Size =
        cs.flatMap String.utf8EncodeChar := by
      rw [← String.length_utf8EncodeChar c, List.drop_left]
    obtain ⟨first, others, hbytes⟩ :=
      List.exists_cons_of_ne_nil (String.utf8EncodeChar_ne_nil (c := c))
    rw [List.flatMap_cons, hbytes, List.cons_append] at hfuel ⊢
    rw [hbytes, List.cons_append] at hchar hdrop
    rw [List.length_cons, List.length_append] at hfuel
    obtain ⟨fuel, rfl⟩ : ∃ k, fuel = k + 1 := ⟨fuel - 1, by omega⟩
    simp only [shownChars, hchar, hdrop]
    rw [shownChars_flatMap (by omega)]

/-- **A text is shown as it is.** -/
@[simp] theorem shown_ofString (s : String) : (ofString s).shown = s := by
  unfold shown
  rw [ofString_eq_flatMap, shownChars_flatMap (Nat.le_refl _), String.ofList_toList]

/-! ## What is shown of other bytes -/

/-- The bytes of the character that some bytes begin with are in front of them. -/
theorem eq_append_of_char? (h : char? bs = some c) :
    bs = String.utf8EncodeChar c ++ bs.drop c.utf8Size := by
  obtain ⟨behind, hbehind⟩ := ByteArray.exists_of_utf8DecodeChar?_eq_some h
  have htake : bs.take 4 = String.utf8EncodeChar c ++ behind.data.toList := by
    simpa using congrArg (fun b => b.data.toList) hbehind
  obtain ⟨rest, hrest⟩ : String.utf8EncodeChar c <+: bs :=
    ⟨behind.data.toList ++ bs.drop 4, by
      rw [← List.append_assoc, ← htake, List.take_append_drop]⟩
  rw [← hrest, ← String.length_utf8EncodeChar c, List.drop_left]

theorem shownChars_cons (fuel : Nat) (first : UInt8) (others : Bytes) :
    shownChars (fuel + 1) (first :: others) = match char? (first :: others) with
      | some c => c :: shownChars fuel ((first :: others).drop c.utf8Size)
      | none => replacement ::
          shownChars fuel ((first :: others).drop (strayLength (first :: others))) := rfl

/-- A character that is shown and is no replacement has its bytes among those that are shown. -/
theorem mem_of_mem_shownChars : ∀ {fuel : Nat} {bs : Bytes}, c ∈ shownChars fuel bs →
    c ≠ replacement → ∀ x ∈ String.utf8EncodeChar c, x ∈ bs
  | 0, _, h, _, _, _ | _ + 1, [], h, _, _, _ => by cases h
  | fuel + 1, first :: others, h, hc, x, hx => by
    rw [shownChars_cons] at h
    split at h
    · rename_i d hd
      rw [eq_append_of_char? hd]
      rcases List.mem_cons.mp h with rfl | h
      · exact List.mem_append_left _ hx
      · exact List.mem_append_right _ (mem_of_mem_shownChars h hc x hx)
    · rcases List.mem_cons.mp h with rfl | h
      · exact absurd rfl hc
      · exact List.mem_of_mem_drop (mem_of_mem_shownChars h hc x hx)

theorem mem_of_mem_shown (h : c ∈ bs.shown.toList) (hc : c ≠ replacement) :
    ∀ x ∈ String.utf8EncodeChar c, x ∈ bs := by
  rw [shown, String.toList_ofList] at h
  exact mem_of_mem_shownChars h hc

theorem strayLength_pos (bs : Bytes) : 0 < strayLength bs := by
  unfold strayLength
  split
  · split_ifs <;> decide
  · decide

theorem length_shownChars_le : ∀ (fuel : Nat) (bs : Bytes),
    ((shownChars fuel bs).flatMap String.utf8EncodeChar).length ≤ 3 * bs.length
  | 0, _ | _ + 1, [] => Nat.zero_le _
  | fuel + 1, first :: others => by
    rw [shownChars_cons]
    split
    · rename_i d hd
      have hbytes := congrArg List.length (eq_append_of_char? hd)
      have hrest := length_shownChars_le fuel ((first :: others).drop d.utf8Size)
      rw [List.length_append] at hbytes
      rw [List.flatMap_cons, List.length_append]
      omega
    · have hreplaced : (String.utf8EncodeChar replacement).length = 3 := by decide
      have hpos := strayLength_pos (first :: others)
      have hrest := length_shownChars_le fuel
        ((first :: others).drop (strayLength (first :: others)))
      rw [List.length_drop] at hrest
      rw [List.flatMap_cons, List.length_append, hreplaced]
      simp only [List.length_cons] at hrest ⊢
      omega

/-- What is shown of some bytes has at most three for each of them. -/
theorem length_ofString_shown_le (bs : Bytes) : (ofString bs.shown).length ≤ 3 * bs.length := by
  rw [ofString_eq_flatMap, shown, String.toList_ofList]
  exact length_shownChars_le bs.length bs

/-- Where nothing is replaced, the bytes are those of what is shown. -/
theorem flatMap_shownChars : ∀ {fuel : Nat} {bs : Bytes}, bs.length ≤ fuel →
    replacement ∉ shownChars fuel bs →
      (shownChars fuel bs).flatMap String.utf8EncodeChar = bs
  | 0, [], _, _ | _ + 1, [], _, _ => rfl
  | fuel + 1, first :: others, hfuel, h => by
    rw [shownChars_cons] at h ⊢
    split at h
    · rename_i d hd
      rw [List.mem_cons, not_or] at h
      have hsize := d.utf8Size_pos
      have hrest : ((first :: others).drop d.utf8Size).length ≤ fuel := by
        rw [List.length_drop]
        omega
      rw [List.flatMap_cons, flatMap_shownChars hrest h.2]
      exact (eq_append_of_char? hd).symm
    · exact absurd List.mem_cons_self h

theorem ofString_shown (h : replacement ∉ bs.shown.toList) : ofString bs.shown = bs := by
  rw [shown, String.toList_ofList] at h
  rw [ofString_eq_flatMap, shown, String.toList_ofList, flatMap_shownChars (Nat.le_refl _) h]

theorem shown_eq_empty_iff : bs.shown = "" ↔ bs = [] := by
  constructor
  · intro h
    have hnone : replacement ∉ bs.shown.toList := by simp [h]
    rw [← ofString_shown hnone, h]
    rfl
  · rintro rfl
    rfl

/-! ## Bytes that stand for themselves -/

/-- A byte below 128 is one of no other character: the bytes of a longer encoding are large. -/
theorem eq_of_mem_utf8EncodeChar (hb : b.toNat < 128) (h : b ∈ String.utf8EncodeChar c) :
    c.toNat = b.toNat := by
  have hbyte {x : Nat} (hx : b = UInt8.ofNat x) : x % 256 = b.toNat := by
    have hnat := congrArg UInt8.toNat hx
    simpa using hnat.symm
  show c.val.toNat = b.toNat
  unfold String.utf8EncodeChar at h
  simp only at h
  split_ifs at h with h1 h2 h3
  · have hval := hbyte (List.mem_singleton.mp h)
    omega
  all_goals simp only [List.mem_cons, List.not_mem_nil, or_false] at h
  · rcases h with h | h
    all_goals
      have hval := hbyte h
      omega
  · rcases h with h | h | h
    all_goals
      have hval := hbyte h
      omega
  · rcases h with h | h | h | h
    all_goals
      have hval := hbyte h
      omega

/-- A character of one byte is among those of a text just if its byte is among the text's. -/
theorem mem_ofString_iff (hc : c.toNat < 128) :
    UInt8.ofNat c.toNat ∈ ofString s ↔ c ∈ s.toList := by
  have hb : (UInt8.ofNat c.toNat).toNat = c.toNat :=
    UInt8.toNat_ofNat_of_lt' (Nat.lt_trans hc (by decide))
  rw [ofString_eq_flatMap, List.mem_flatMap]
  constructor
  · rintro ⟨d, hd, hbyte⟩
    have heq := eq_of_mem_utf8EncodeChar (by omega) hbyte
    rw [hb] at heq
    have hdc : d = c := Char.ext (UInt32.toNat_inj.mp heq)
    rwa [hdc] at hd
  · intro hc'
    refine ⟨c, hc', ?_⟩
    have hone : String.utf8EncodeChar c = [UInt8.ofNat c.toNat] := by
      unfold String.utf8EncodeChar
      exact if_pos (Nat.le_of_lt_succ hc)
    simp [hone]

end Zipship.Bytes
