import Mathlib.Data.List.GetD
import Mathlib.Data.List.TakeWhile
import Zipship.Deflate.Decoder
import Zipship.Proofs.Deflate.Code

/-!
# Codes in front of a block are read back

The steps of a list of lengths append just these lengths: a row of equal lengths is taken together
as long as the bounds of its repetition allow, and what was taken together is written when the row
ends. The lengths of the steps' codes that are not written are zeros.
-/

namespace Zipship.Deflate

open BitWriter (Writes)

variable {lengths : Array Nat} {s : LengthStep}

/-! ## Steps -/

/-- The extra bits of a step can say how often it repeats. -/
def LengthStep.Fits (s : LengthStep) : Prop := s.extra < 2 ^ stepExtraBits s.symbol

theorem LengthStep.fits_length (l : Nat) : LengthStep.Fits ⟨l, 0⟩ :=
  Nat.two_pow_pos (stepExtraBits l)

theorem push_append_replicate (lengths : Array Nat) (l count : Nat) :
    lengths.push l ++ Array.replicate count l = lengths ++ Array.replicate (count + 1) l := by
  rw [← Array.toList_inj]
  simp [List.replicate_succ]

theorem expandStep?_length {l : Nat} (hl : l ≤ 15) (lengths : Array Nat) :
    expandStep? lengths ⟨l, 0⟩ = some (lengths.push l) := if_pos (Nat.lt_succ_of_le hl)

theorem foldlM_replicate {l : Nat} (hl : l ≤ 15) (count : Nat) (lengths : Array Nat) :
    (List.replicate count ⟨l, 0⟩).foldlM expandStep? lengths =
      some (lengths ++ Array.replicate count l) := by
  induction count generalizing lengths with
  | zero => simp
  | succ count ih =>
    rw [List.replicate_succ, List.foldlM_cons, expandStep?_length hl, Option.bind_eq_bind,
      Option.bind_some, ih, push_append_replicate]

theorem size_lt_of_expandStep? {lengths' : Array Nat} (h : expandStep? lengths s = some lengths') :
    lengths.size < lengths'.size := by
  unfold expandStep? at h
  split_ifs at h with hlength
  · cases h
    rw [Array.size_push]
    exact Nat.lt_succ_self _
  all_goals
    obtain ⟨l, -, rfl⟩ := Option.map_eq_some_iff.mp h
    have hfirst : 0 < (repeatRange s.symbol).first := by
      unfold repeatRange
      split_ifs <;> decide
    rw [Array.size_append, Array.size_replicate]
    omega

/-- Every step appends something. -/
theorem length_le_of_foldlM {steps : List LengthStep} {lengths' : Array Nat}
    (h : steps.foldlM expandStep? lengths = some lengths') :
    lengths.size + steps.length ≤ lengths'.size := by
  induction steps generalizing lengths with
  | nil =>
    cases h
    exact Nat.le_refl _
  | cons s steps ih =>
    rw [List.foldlM_cons, Option.bind_eq_bind, Option.bind_eq_some_iff] at h
    obtain ⟨middle, hstep, hrest⟩ := h
    have hmore := size_lt_of_expandStep? hstep
    have hmost := ih hrest
    rw [List.length_cons]
    omega

/-! ## Rows of equal lengths -/

section Rows

variable {previous : Option Nat} {length count : Nat}

/-- The steps of a row of equal lengths append the row. -/
theorem foldlM_repeatSteps (hlength : length ≤ 15)
    (hprevious : ∀ l ∈ previous, lengths.back? = some l)
    (hcount : count ≤ (rowBounds previous length).1) :
    (repeatSteps previous length count).foldlM expandStep? lengths =
      some (lengths ++ Array.replicate count length) := by
  unfold repeatSteps
  split_ifs with hfew hnonzero hsame hshort
  · exact foldlM_replicate hlength count lengths
  · simp only [rowBounds, if_neg hnonzero, if_pos hsame] at hfew hcount
    have hback : lengths.back? = some length := hprevious length hsame
    have hall : 3 + (count - 3) = count := by omega
    simp [expandStep?, repeatRange, hback, hall]
  · simp only [rowBounds, if_neg hnonzero, if_neg hsame] at hfew hcount
    have hall : 3 + (count - 4) + 1 = count := by omega
    rw [List.foldlM_cons, expandStep?_length hlength]
    simp [expandStep?, repeatRange, push_append_replicate, hall]
  · rw [not_not] at hnonzero
    subst hnonzero
    simp only [rowBounds, if_pos] at hfew
    have hall : 3 + (count - 3) = count := by omega
    simp [expandStep?, repeatRange, hall]
  · rw [not_not] at hnonzero
    subst hnonzero
    have hall : 11 + (count - 11) = count := by omega
    simp [expandStep?, repeatRange, hall]

theorem fits_of_mem_repeatSteps (hcount : count ≤ (rowBounds previous length).1)
    (hs : s ∈ repeatSteps previous length count) : s.Fits := by
  unfold repeatSteps at hs
  split_ifs at hs with hfew hnonzero hsame hshort
  · obtain ⟨-, rfl⟩ := List.mem_replicate.mp hs
    exact LengthStep.fits_length length
  · simp only [rowBounds, if_neg hnonzero, if_pos hsame] at hcount
    rw [List.mem_singleton.mp hs, LengthStep.Fits]
    show count - 3 < 4
    omega
  · simp only [rowBounds, if_neg hnonzero, if_neg hsame] at hcount
    rcases List.mem_cons.mp hs with rfl | hs
    · exact LengthStep.fits_length length
    · rw [List.mem_singleton.mp hs, LengthStep.Fits]
      show count - 4 < 4
      omega
  · rw [List.mem_singleton.mp hs, LengthStep.Fits]
    show count - 3 < 8
    omega
  · rw [not_not] at hnonzero
    simp only [rowBounds, if_pos hnonzero] at hcount
    rw [List.mem_singleton.mp hs, LengthStep.Fits]
    show count - 11 < 128
    omega

theorem rowBounds_pos (previous : Option Nat) (length : Nat) :
    0 < (rowBounds previous length).1 := by
  unfold rowBounds
  split_ifs <;> decide

/-- The steps of a list of lengths append the lengths that were met before and the list. -/
theorem foldlM_lengthSteps {l : List Nat} (hl : ∀ length ∈ l, length ≤ 15)
    (hprevious : ∀ length ∈ previous, lengths.back? = some length)
    (hnone : l = [] → count = 0) (hcount : count < (rowBounds previous (l.headD 0)).1) :
    (lengthSteps count previous l).foldlM expandStep? lengths =
      some (lengths ++ (List.replicate count (l.headD 0) ++ l).toArray) := by
  induction l generalizing count previous lengths with
  | nil =>
    rw [hnone rfl]
    simp [lengthSteps]
  | cons length l ih =>
    have hl' : ∀ length ∈ l, length ≤ 15 := fun n hn => hl n (List.mem_cons_of_mem _ hn)
    rw [List.headD_cons] at hcount ⊢
    rw [lengthSteps]
    split_ifs with hrow
    · obtain ⟨hmore, hhead⟩ := hrow
      obtain ⟨rest, rfl⟩ : ∃ rest, l = length :: rest := List.head?_eq_some_iff.mp hhead
      rw [ih hl' hprevious (fun h => absurd h (List.cons_ne_nil _ _)) hmore, List.headD_cons,
        List.replicate_succ', List.append_assoc, List.singleton_append]
    · have hsteps := foldlM_repeatSteps (hl length List.mem_cons_self) hprevious hcount
      have hback : ∀ n ∈ some length,
          (lengths ++ Array.replicate (count + 1) length).back? = some n := by
        rintro n ⟨⟩
        simp [Array.back?_append, Array.back?_replicate]
      rw [List.foldlM_append, hsteps, Option.bind_eq_bind, Option.bind_some,
        ih hl' hback (fun _ => rfl) (rowBounds_pos _ _), Array.append_assoc]
      congr 2
      rw [← Array.toList_inj]
      simp [List.replicate_succ']

theorem fits_of_mem_lengthSteps {l : List Nat}
    (hcount : count < (rowBounds previous (l.headD 0)).1) (hs : s ∈ lengthSteps count previous l) :
    s.Fits := by
  induction l generalizing count previous with
  | nil => exact absurd hs List.not_mem_nil
  | cons length l ih =>
    rw [List.headD_cons] at hcount
    rw [lengthSteps] at hs
    split_ifs at hs with hrow
    · obtain ⟨hmore, hhead⟩ := hrow
      obtain ⟨rest, rfl⟩ : ∃ rest, l = length :: rest := List.head?_eq_some_iff.mp hhead
      exact ih hmore hs
    · rcases List.mem_append.mp hs with hs | hs
      · exact fits_of_mem_repeatSteps hcount hs
      · exact ih (rowBounds_pos _ _) hs

end Rows

/-! ## Lengths that are not written -/

theorem exists_withoutTrailingZeros (l : List Nat) :
    ∃ count, l = withoutTrailingZeros l ++ List.replicate count 0 := by
  refine ⟨(l.reverse.takeWhile (· = 0)).length, ?_⟩
  have hzeros : l.reverse.takeWhile (· = 0) =
      List.replicate (l.reverse.takeWhile (· = 0)).length 0 :=
    List.eq_replicate_of_mem fun n hn => by simpa using List.mem_takeWhile_imp hn
  rw [← List.reverse_replicate, ← hzeros, withoutTrailingZeros, ← List.reverse_append,
    List.takeWhile_append_dropWhile, List.reverse_reverse]

theorem getD_append_zeros (l : List Nat) (count i : Nat) :
    (l ++ List.replicate count 0).getD i 0 = l.getD i 0 := by
  rcases Nat.lt_or_ge i l.length with hi | hi
  · rw [List.getD_append _ _ _ _ hi]
  · rw [List.getD_append_right _ _ _ _ hi, List.getD_eq_default _ _ hi]
    simp [List.getD_eq_getElem?_getD, List.getElem?_replicate]
    split_ifs <;> rfl

/-- Zeros at the end of a list change nothing of what it holds. -/
theorem getD_shown (l : List Nat) (length i : Nat) :
    (padded (withoutTrailingZeros l) length).getD i 0 = l.getD i 0 := by
  obtain ⟨count, hl⟩ := exists_withoutTrailingZeros l
  rw [padded, getD_append_zeros]
  conv_rhs => rw [hl, getD_append_zeros]

namespace Header

variable (h : Header)

theorem length_shownLengths : 4 ≤ h.shownLengths.length ∧ h.shownLengths.length ≤ 19 := by
  obtain ⟨count, hl⟩ := exists_withoutTrailingZeros (stepOrder.map h.stepCode.length)
  have hlength := congrArg List.length hl
  rw [List.length_append, List.length_map, show stepOrder.length = 19 from rfl] at hlength
  rw [shownLengths, padded, List.length_append, List.length_replicate]
  omega

theorem stepLength_le (s : Nat) : h.stepCode.length s ≤ 7 := by
  obtain ⟨-, -, -, hle, -⟩ := h.isHeader
  rcases Nat.eq_zero_or_pos (h.stepCode.length s) with hzero | hpos
  · rw [hzero]
    exact Nat.zero_le 7
  · refine hle _ ?_
    rw [Coding.length, Array.getD_eq_getD_getElem?,
      Array.getElem?_eq_getElem (Coding.lt_size_of_length_pos hpos)]
    exact Array.getElem_mem_toList _

theorem lt_of_mem_shownLengths {l : Nat} (hl : l ∈ h.shownLengths) : l < 2 ^ 3 := by
  obtain ⟨count, hall⟩ := exists_withoutTrailingZeros (stepOrder.map h.stepCode.length)
  rcases List.mem_append.mp hl with hl | hl
  · have hmem : l ∈ stepOrder.map h.stepCode.length := by
      rw [hall]
      exact List.mem_append_left _ hl
    obtain ⟨s, -, rfl⟩ := List.mem_map.mp hmem
    exact Nat.lt_succ_of_le (h.stepLength_le s)
  · rw [List.eq_of_mem_replicate hl]
    decide

theorem mem_stepOrder {s : Nat} (hs : s < stepCount) : s ∈ stepOrder := by
  revert s
  decide

/-- The lengths that are read are those of the steps' codes. -/
theorem map_shownLengths :
    (List.range stepCount).map (fun s => h.shownLengths.getD (stepOrder.idxOf s) 0) =
      h.stepCode.lengths.toList := by
  obtain ⟨-, -, hsize, -⟩ := h.isHeader
  refine List.ext_getElem (by simp [hsize]) fun s hs hs' => ?_
  have hmem : s ∈ stepOrder := mem_stepOrder (by simpa using hs)
  have hplace := List.idxOf_lt_length_iff.mpr hmem
  rw [List.getElem_map, List.getElem_range, shownLengths, getD_shown,
    List.getD_eq_getElem _ _ (by simpa using hplace), List.getElem_map, List.getElem_idxOf]
  simp only [Coding.length, Array.getD_eq_getD_getElem?]
  rw [Array.getElem?_eq_getElem (by simpa using hs')]
  simp

/-! ## Reading the header -/

/-- The bits of a step. -/
def stepBits (s : LengthStep) : List Nat :=
  h.stepCode.bits s.symbol ++ numberBits (stepExtraBits s.symbol) s.extra

/-- The bits of the header. -/
def headerBits : List Nat :=
  numberBits 5 (h.book.main.lengths.size - (endOfBlock + 1)) ++
    (numberBits 5 (h.book.distance.lengths.size - 1) ++
      (numberBits 4 (h.shownLengths.length - 4) ++
        (h.shownLengths.flatMap (numberBits 3) ++ h.book.steps.flatMap h.stepBits)))

theorem writes_put : Writes h.put h.headerBits := by
  have hstep (s : LengthStep) : Writes (h.putStep · s) (h.stepBits s) :=
    (h.stepCode.writes_put s.symbol).next (BitWriter.writes_put _ _)
  exact (BitWriter.writes_put _ 5).next ((BitWriter.writes_put _ 5).next
    ((BitWriter.writes_put _ 4).next ((BitWriter.writes_foldl fun l _ =>
      BitWriter.writes_put l 3).next (BitWriter.writes_foldl fun s _ => hstep s))))

/-- Steps are read as they were written, up to the length that completes the list. -/
theorem readLengths_eq {steps : List LengthStep} {lengths lengths' : Array Nat} {fuel : Nat}
    {r : BitReader} {tail : List Nat} (hfits : ∀ s ∈ steps, s.Fits)
    (hcode : ∀ s ∈ steps, 0 < h.stepCode.length s.symbol)
    (hexpand : steps.foldlM expandStep? lengths = some lengths') (hfuel : steps.length < fuel)
    (hr : r.rest = steps.flatMap h.stepBits ++ tail) :
    readLengths (.ofLengths h.stepCode.lengths) lengths'.size fuel r lengths =
      some (lengths', r.skip (steps.flatMap h.stepBits).length) := by
  induction steps generalizing lengths fuel r with
  | nil =>
    obtain ⟨fuel, rfl⟩ := Nat.exists_eq_add_of_lt hfuel
    cases hexpand
    rw [readLengths, if_pos (Nat.le_refl _)]
    rfl
  | cons s steps ih =>
    obtain ⟨fuel, rfl⟩ := Nat.exists_eq_add_of_lt hfuel
    have hmore := length_le_of_foldlM hexpand
    have hopen : ¬ lengths'.size ≤ lengths.size := by
      rw [List.length_cons] at hmore
      omega
    rw [List.foldlM_cons, Option.bind_eq_bind, Option.bind_eq_some_iff] at hexpand
    obtain ⟨middle, hstep, hothers⟩ := hexpand
    simp only [List.flatMap_cons, stepBits, List.append_assoc] at hr ⊢
    have hr' := BitReader.rest_skip hr
    have hsymbol := Coding.reads_symbol (hcode s List.mem_cons_self) r _ hr
    have hextra := BitReader.number?_eq (hfits s List.mem_cons_self) hr'
    have hr'' := BitReader.rest_skip hr'
    rw [length_numberBits] at hr''
    have hfuel' : steps.length < (s :: steps).length + fuel := by
      rw [List.length_cons]
      omega
    have hrest := ih (fun t ht => hfits t (List.mem_cons_of_mem _ ht))
      (fun t ht => hcode t (List.mem_cons_of_mem _ ht)) hothers hfuel' hr''
    rw [readLengths, if_neg hopen, hsymbol]
    simp only [Option.bind_eq_bind, Option.bind_some, hextra, hstep, hrest]
    simp only [BitReader.skip_skip, List.length_append, length_numberBits, Nat.add_assoc]

/-- The steps of a header append the lengths of both codes. -/
theorem foldlM_steps : h.book.steps.foldlM expandStep? #[] =
    some (h.book.main.lengths ++ h.book.distance.lengths) := by
  rw [Codebook.steps, List.foldlM_append,
    foldlM_lengthSteps h.book.main.isCode.1 (by simp) (fun _ => rfl) (rowBounds_pos _ _),
    Option.bind_eq_bind, Option.bind_some,
    foldlM_lengthSteps h.book.distance.isCode.1 (by simp) (fun _ => rfl) (rowBounds_pos _ _)]
  simp

theorem fits_of_mem_steps {s : LengthStep} (hs : s ∈ h.book.steps) : s.Fits := by
  rcases List.mem_append.mp hs with hs | hs <;>
    exact fits_of_mem_lengthSteps (rowBounds_pos _ _) hs

/-- A header is read as it was written: the codes behind it are those that it says. -/
theorem readHeader_eq {r : BitReader} {tail : List Nat} (hr : r.rest = h.headerBits ++ tail) :
    readHeader r = some ((.ofLengths h.book.main.lengths, .ofLengths h.book.distance.lengths),
      r.skip h.headerBits.length) := by
  obtain ⟨⟨hmain, hmain'⟩, ⟨hdistance, hdistance'⟩, -, -, hcode⟩ := h.isHeader
  obtain ⟨hleast, hmost⟩ := h.length_shownLengths
  simp only [headerBits, List.append_assoc] at hr ⊢
  have hnumber := BitReader.number?_eq
    (show h.book.main.lengths.size - (endOfBlock + 1) < 2 ^ 5 by omega) hr
  have hr' := BitReader.rest_skip hr
  rw [length_numberBits] at hr'
  have hnumber' := BitReader.number?_eq
    (show h.book.distance.lengths.size - 1 < 2 ^ 5 by omega) hr'
  have hr'' := BitReader.rest_skip hr'
  rw [length_numberBits] at hr''
  have hshown := BitReader.number?_eq (show h.shownLengths.length - 4 < 2 ^ 4 by omega) hr''
  have hr3 := BitReader.rest_skip hr''
  rw [length_numberBits] at hr3
  have hlengths := BitReader.numbers?_eq (fun l hl => h.lt_of_mem_shownLengths hl) hr3
  have hsteps := h.foldlM_steps
  have hfuel : h.book.steps.length <
      (h.book.main.lengths ++ h.book.distance.lengths).size + 1 :=
    Nat.lt_succ_of_le (by simpa using length_le_of_foldlM hsteps)
  have hread := h.readLengths_eq (fun s hs => h.fits_of_mem_steps hs) hcode hsteps hfuel
    (BitReader.rest_skip hr3)
  have hmainSize : h.book.main.lengths.size - (endOfBlock + 1) + (endOfBlock + 1) =
      h.book.main.lengths.size := Nat.sub_add_cancel hmain
  have hdistanceSize : h.book.distance.lengths.size - 1 + 1 = h.book.distance.lengths.size :=
    Nat.sub_add_cancel hdistance
  have hshownSize : h.shownLengths.length - 4 + 4 = h.shownLengths.length :=
    Nat.sub_add_cancel hleast
  rw [Array.size_append] at hread
  simp only [readHeader, hnumber, hnumber', hshown, hmainSize, hdistanceSize, hshownSize, hlengths,
    h.map_shownLengths, hread, Option.bind_eq_bind, Option.bind_some, Array.toArray_toList]
  rw [if_pos Array.size_append]
  have hfront : (h.book.main.lengths ++ h.book.distance.lengths).extract 0
      h.book.main.lengths.size = h.book.main.lengths := by simp
  have hback : (h.book.main.lengths ++ h.book.distance.lengths).extract h.book.main.lengths.size
      (h.book.main.lengths.size + h.book.distance.lengths.size) = h.book.distance.lengths := by
    simp [Array.extract_append]
  rw [hfront, hback]
  simp only [BitReader.skip_skip, List.length_append, length_numberBits, Nat.add_assoc]

end Header

end Zipship.Deflate
