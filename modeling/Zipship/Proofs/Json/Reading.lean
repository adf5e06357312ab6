import Mathlib.Data.List.TakeWhile
import Mathlib.Tactic.Common
import Zipship.Json.Printer
import Zipship.Proofs.Json.Reader

/-!
# What is written in JSON can be read

Reading the text of a value gives the value back, whatever its texts hold and in whichever layout
it is written, as long as that puts nothing but blanks between the parts (`read?_compact`,
`read?_pretty`). Each part that is written comes before a mark, a blank or the end, and a reader
that takes that part from the front stops there: only a number has to be told where it ends, by
something that is no digit (`Stops`).
-/

namespace Zipship.Json

namespace Reader

variable {α : Type} {a b n depth fuel : Nat} {c mark close : Char} {cs blanks rest : List Char}
  {j : Json} {l : Layout} {s : String}

/-! ## Marks -/

theorem skipBlanks_cons (h : isBlank c = false) : skipBlanks (c :: cs) = c :: cs := by
  simp [skipBlanks, h]

theorem mark?_cons (h : isBlank c = false) (mark : Char) :
    mark? mark (c :: cs) = if c = mark then some cs else none := by
  rw [mark?, skipBlanks_cons h]

/-- Blanks say nothing in front of something else. -/
def Blank (blanks : List Char) : Prop := ∀ c ∈ blanks, isBlank c = true

theorem Blank.skip (h : Blank blanks) (cs : List Char) :
    skipBlanks (blanks ++ cs) = skipBlanks cs := List.dropWhile_append_of_pos h

theorem Blank.mark? (h : Blank blanks) (mark : Char) (cs : List Char) :
    mark? mark (blanks ++ cs) = mark? mark cs := by
  rw [Reader.mark?, Reader.mark?, h.skip]

/-- What is written begins, blanks apart, with a character other than the given mark. -/
def Opens (mark : Char) (cs : List Char) : Prop :=
  ∃ blanks c rest, cs = blanks ++ c :: rest ∧ Blank blanks ∧ isBlank c = false ∧ c ≠ mark

theorem opens_cons (hblank : isBlank c = false) (hne : c ≠ mark) : Opens mark (c :: cs) :=
  ⟨[], c, cs, rfl, fun _ hc => absurd hc List.not_mem_nil, hblank, hne⟩

theorem Opens.append (h : Opens mark cs) (more : List Char) : Opens mark (cs ++ more) := by
  obtain ⟨blanks, c, rest, rfl, hblanks, hc, hne⟩ := h
  exact ⟨blanks, c, rest ++ more, List.append_assoc _ _ _, hblanks, hc, hne⟩

theorem Opens.behind (h : Opens mark cs) (hblanks : Blank blanks) :
    Opens mark (blanks ++ cs) := by
  obtain ⟨others, c, rest, rfl, hothers, hc, hne⟩ := h
  refine ⟨blanks ++ others, c, rest, (List.append_assoc _ _ _).symm, ?_, hc, hne⟩
  exact List.forall_mem_append.mpr ⟨hblanks, hothers⟩

theorem mark?_of_opens (h : Opens mark cs) : mark? mark (cs ++ rest) = none := by
  obtain ⟨blanks, c, cs, rfl, hblanks, hc, hne⟩ := h
  rw [List.append_assoc, hblanks.mark?, List.cons_append, mark?_cons hc, if_neg hne]

/-! ## Texts -/

theorem hexValue?_hexDigit : ∀ a < 16, Toml.Reader.hexValue? (Digest.hexDigit a) = some a := by
  decide

/-- The escape of a control character is read as the number that it holds. -/
theorem unit?_hexDigits (ha : a < 16) (hb : b < 16) (cs : List Char) :
    unit? ('0' :: '0' :: Digest.hexDigit a :: Digest.hexDigit b :: cs) =
      some (16 * a + b, cs) := by
  have hzero : Toml.Reader.hexValue? '0' = some 0 := by decide
  simp [unit?, Toml.Reader.hexNumber?, hzero, hexValue?_hexDigit a ha, hexValue?_hexDigit b hb]

/-- A character is read as it was written. -/
theorem char?_escapeChar (c : Char) (cs : List Char) :
    char? (escapeChar c ++ cs) = some (c, cs) := by
  unfold escapeChar
  split_ifs with hquote hslash h08 h0c hline hreturn htab hcontrol
  · rw [hquote]; rfl
  · rw [hslash]; rfl
  · rw [h08]; rfl
  · rw [h0c]; rfl
  · rw [hline]; rfl
  · rw [hreturn]; rfl
  · rw [htab]; rfl
  · have hsplit : 16 * (c.toNat / 16) + c.toNat % 16 = c.toNat := Nat.div_add_mod c.toNat 16
    have hunit := unit?_hexDigits (a := c.toNat / 16) (b := c.toNat % 16)
      (by omega) (by omega) cs
    have hvalid : c.toNat.isValidChar := c.valid
    rw [hsplit] at hunit
    show codePoint? ('0' :: '0' :: Digest.hexDigit (c.toNat / 16) ::
      Digest.hexDigit (c.toNat % 16) :: cs) = _
    rw [codePoint?, hunit]
    simp [hvalid]
  · simp [char?, hslash, hcontrol]

/-- Every character is written as one or more, of which the first is no quote. -/
theorem escapeChar_eq_cons (c : Char) :
    ∃ first more, escapeChar c = first :: more ∧ first ≠ '"' := by
  unfold escapeChar
  split_ifs with hquote
  all_goals exact ⟨_, _, rfl, by first | decide | exact hquote⟩

theorem textChars?_flatMap (text rest : List Char)
    (hfuel : (text.flatMap escapeChar ++ '"' :: rest).length ≤ fuel) :
    textChars? fuel (text.flatMap escapeChar ++ '"' :: rest) = some (text, rest) := by
  induction text generalizing fuel with
  | nil =>
    obtain ⟨fuel, rfl⟩ := Nat.exists_eq_add_of_le' (Nat.le_of_add_left_le hfuel)
    rfl
  | cons c text ih =>
    obtain ⟨first, more, hfirst, hquote⟩ := escapeChar_eq_cons c
    have hchar := char?_escapeChar c (text.flatMap escapeChar ++ '"' :: rest)
    rw [List.flatMap_cons, hfirst, List.append_assoc, List.cons_append] at hfuel ⊢
    rw [hfirst, List.cons_append] at hchar
    rw [List.length_cons, List.length_append] at hfuel
    obtain ⟨fuel, rfl⟩ := Nat.exists_eq_add_of_le' (Nat.le_of_add_left_le hfuel)
    have hshort : (text.flatMap escapeChar ++ '"' :: rest).length ≤ fuel := by omega
    rw [textChars?, if_neg (by simpa using hquote), hchar]
    simp [ih hshort]

/-- A text is read as it was written. -/
theorem text?_quote (s : String) (rest : List Char) :
    (mark? '"' (quote s ++ rest)).bind text? = some (s, rest) := by
  have htext : quote s ++ rest = '"' :: (s.toList.flatMap escapeChar ++ '"' :: rest) := by
    simp [quote]
  rw [htext, mark?_cons (by decide), if_pos rfl, Option.bind_some, text?,
    textChars?_flatMap _ _ le_rfl]
  simp

/-! ## Numbers and words -/

/-- What follows does not go on with a number. -/
def Stops (rest : List Char) : Prop := ∀ c ∈ rest.head?, c.isDigit = false

theorem stops_cons (h : c.isDigit = false) : Stops (c :: rest) := by
  simpa [Stops] using h

/-- A blank ends a number, and so does what may stand behind blanks. -/
theorem Stops.behind (h : Stops rest) (hblanks : Blank blanks) : Stops (blanks ++ rest) := by
  cases blanks with
  | nil => exact h
  | cons b blanks =>
    have hb : isBlank b = true := hblanks b List.mem_cons_self
    simp only [isBlank, Bool.or_eq_true, decide_eq_true_eq] at hb
    refine stops_cons ?_
    rcases hb with ((rfl | rfl) | rfl) | rfl <;> decide

theorem Stops.digits (h : Stops rest) :
    rest.takeWhile Char.isDigit = [] ∧ rest.dropWhile Char.isDigit = rest := by
  cases rest with
  | nil => exact ⟨rfl, rfl⟩
  | cons c cs => simp [h c rfl]

theorem toDigits_eq_cons (n : Nat) :
    ∃ c more, Nat.toDigits 10 n = c :: more ∧ c.isDigit = true := by
  obtain ⟨c, more, hcs⟩ := List.exists_cons_of_ne_nil (Nat.toDigits_ne_nil (n := n) (b := 10))
  exact ⟨c, more, hcs, Nat.isDigit_of_mem_toDigits (by decide) (by decide)
    (hcs ▸ List.mem_cons_self)⟩

/-- Only zero is written with a zero in front. -/
theorem toDigits_of_head? (h : (Nat.toDigits 10 n).head? = some '0') :
    Nat.toDigits 10 n = ['0'] := by
  induction n using Nat.strongRecOn with
  | _ n ih =>
    rcases Nat.lt_or_ge n 10 with hn | hn
    · rw [Nat.toDigits_of_lt_base hn] at h ⊢
      simpa using h
    · obtain ⟨c, more, hcs, -⟩ := toDigits_eq_cons (n / 10)
      rw [Nat.toDigits_of_base_le (by decide) hn, hcs] at h
      have hzero := ih (n / 10) (by omega) (by rw [hcs]; exact h)
      have hvalue : n / 10 = 0 := by
        rw [← Nat.ofDigitChars_ten_toDigits (n := n / 10), hzero]
        rfl
      omega

theorem natural?_toDigits (n : Nat) (hrest : Stops rest) :
    natural? (Nat.toDigits 10 n ++ rest) = some (n, rest) := by
  have hall : ∀ c ∈ Nat.toDigits 10 n, c.isDigit = true := fun c =>
    Nat.isDigit_of_mem_toDigits (by decide) (by decide)
  obtain ⟨htake, hdrop⟩ := hrest.digits
  unfold natural?
  simp only [List.takeWhile_append_of_pos hall, List.dropWhile_append_of_pos hall, htake, hdrop,
    List.append_nil, Nat.ofDigitChars_ten_toDigits]
  refine if_neg ?_
  rintro (hnil | ⟨hhead, hne⟩)
  · exact Nat.toDigits_ne_nil hnil
  · exact hne (toDigits_of_head? hhead)

/-- A character that a number may begin with. -/
def BeginsNumber (c : Char) : Prop := c = '-' ∨ c.isDigit = true

theorem BeginsNumber.ne (h : BeginsNumber c) (hminus : mark ≠ '-')
    (hdigit : mark.isDigit = false) : c ≠ mark := by
  rintro rfl
  rcases h with h | h
  · exact hminus h
  · rw [hdigit] at h
    contradiction

theorem BeginsNumber.not_blank (h : BeginsNumber c) : isBlank c = false := by
  simp only [isBlank, Bool.or_eq_false_iff, decide_eq_false_iff_not]
  exact ⟨⟨⟨h.ne (by decide) (by decide), h.ne (by decide) (by decide)⟩,
    h.ne (by decide) (by decide)⟩, h.ne (by decide) (by decide)⟩

theorem intChars_eq_cons (i : Int) : ∃ c more, intChars i = c :: more ∧ BeginsNumber c := by
  unfold intChars
  split_ifs
  · exact ⟨'-', _, rfl, .inl rfl⟩
  · obtain ⟨c, more, hcs, hdigit⟩ := toDigits_eq_cons i.natAbs
    exact ⟨c, more, hcs, .inr hdigit⟩

theorem integer?_intChars (i : Int) (hrest : Stops rest) :
    integer? (intChars i ++ rest) = some (i, rest) := by
  unfold intChars integer?
  split_ifs with hneg hminus hminus
  · have hnegative : -(i.natAbs : Int) = i := by omega
    rw [List.cons_append, List.tail_cons, natural?_toDigits _ hrest]
    simp only [Option.map_some, hnegative]
  · simp at hminus
  · obtain ⟨c, more, hcs, hdigit⟩ := toDigits_eq_cons i.natAbs
    rw [hcs, List.cons_append, List.head?_cons, Option.some.injEq] at hminus
    rw [hminus] at hdigit
    contradiction
  · have hnonnegative : (i.natAbs : Int) = i := by omega
    rw [natural?_toDigits _ hrest]
    simp only [Option.map_some, hnonnegative]

/-- A number does not open with a mark. -/
theorem opens_intChars (i : Int) (hminus : mark ≠ '-') (hdigit : mark.isDigit = false) :
    Opens mark (intChars i) := by
  obtain ⟨c, more, hcs, hbegins⟩ := intChars_eq_cons i
  rw [hcs]
  exact opens_cons hbegins.not_blank (hbegins.ne hminus hdigit)

/-- A number is neither a word nor a text. -/
theorem scalar?_intChars (i : Int) (hrest : Stops rest) :
    scalar? (intChars i ++ rest) = some (int i, rest) := by
  obtain ⟨c, more, hcs, hbegins⟩ := intChars_eq_cons i
  have hquote : mark? '"' (intChars i ++ rest) = none :=
    mark?_of_opens (opens_intChars i (by decide) (by decide))
  have hskip : skipBlanks (intChars i ++ rest) = intChars i ++ rest := by
    rw [hcs, List.cons_append, skipBlanks_cons hbegins.not_blank]
  have hword : (words.find? fun w => w.1.isPrefixOf (intChars i ++ rest)) = none := by
    have hn : c ≠ 'n' := hbegins.ne (by decide) (by decide)
    have ht : c ≠ 't' := hbegins.ne (by decide) (by decide)
    have hf : c ≠ 'f' := hbegins.ne (by decide) (by decide)
    simp [words, hcs, List.isPrefixOf, hn.symm, ht.symm, hf.symm]
  simp only [scalar?, hquote, hskip, hword, integer?_intChars i hrest, Option.map_some]

theorem scalar?_quote (s : String) (rest : List Char) :
    scalar? (quote s ++ rest) = some (str s, rest) := by
  obtain ⟨cs, hcs, htext⟩ := Option.bind_eq_some_iff.mp (text?_quote s rest)
  simp only [scalar?, hcs, htext, Option.map_some]

/-- Blanks in front of a value that holds no other ones say nothing. -/
theorem Blank.scalar? (h : Blank blanks) (cs : List Char) :
    scalar? (blanks ++ cs) = scalar? cs := by
  simp only [Reader.scalar?, h.mark?, h.skip]

/-! ## Arrays and objects -/

/-- A mark that closes something: it is none of the others that may stand there. -/
structure Closes (close : Char) : Prop where
  not_blank : isBlank close = false
  not_digit : close.isDigit = false
  not_comma : close ≠ ','

section Sequences

variable {element : List Char → Option (α × List Char)} {write : α → List Char} {x : α}
  {as : List α} {more : List Char}

theorem elements?_last (hclose : Closes close) (hblanks : Blank blanks)
    (h : element cs = some (x, blanks ++ close :: rest)) :
    elements? element close (fuel + 1) cs = some ([x], rest) := by
  simp [elements?, h, hblanks.mark?, mark?_cons hclose.not_blank]

theorem elements?_comma (hclose : Closes close) (h : element cs = some (x, ',' :: more))
    (hmore : elements? element close fuel more = some (as, rest)) :
    elements? element close (fuel + 1) cs = some (x :: as, rest) := by
  have hblank : isBlank ',' = false := by decide
  simp [elements?, h, mark?_cons hblank, hclose.not_comma.symm, hmore]

theorem intercalate_map_cons_cons (write : α → List Char) (x y : α) (as : List α) :
    [','].intercalate ((x :: y :: as).map write) =
      write x ++ ',' :: [','].intercalate ((y :: as).map write) := by
  rw [List.map_cons, List.map_cons, List.intercalate_cons_cons, List.append_assoc,
    List.singleton_append]

theorem length_le_intercalate (write : α → List Char) (h : x ∈ as) :
    (write x).length ≤ ([','].intercalate (as.map write)).length := by
  induction as with
  | nil => cases h
  | cons y as ih =>
    cases as with
    | nil =>
      rw [List.mem_singleton.mp h, List.map_singleton, List.intercalate_singleton]
    | cons z as =>
      rw [intercalate_map_cons_cons, List.length_append, List.length_cons]
      rcases List.mem_cons.mp h with rfl | h
      · omega
      · have hlength := ih h
        omega

/-- Elements are read as they were written, each by itself. -/
theorem elements?_intercalate (hclose : Closes close) (hblanks : Blank blanks) (hne : as ≠ [])
    (hread : ∀ x ∈ as, ∀ rest, Stops rest → element (write x ++ rest) = some (x, rest))
    (hfuel : ([','].intercalate (as.map write) ++ (blanks ++ close :: rest)).length ≤ fuel) :
    elements? element close fuel
        ([','].intercalate (as.map write) ++ (blanks ++ close :: rest)) = some (as, rest) := by
  induction as generalizing fuel with
  | nil => exact absurd rfl hne
  | cons x as ih =>
    obtain ⟨fuel, rfl⟩ : ∃ more, fuel = more + 1 := by
      refine Nat.exists_eq_add_one_of_ne_zero ?_
      rintro rfl
      simp at hfuel
    have hx := hread x List.mem_cons_self
    cases as with
    | nil =>
      rw [List.map_singleton, List.intercalate_singleton]
      exact elements?_last hclose hblanks (hx _ ((stops_cons hclose.not_digit).behind hblanks))
    | cons y as =>
      rw [intercalate_map_cons_cons, List.append_assoc, List.cons_append] at hfuel ⊢
      have hshort : ([','].intercalate ((y :: as).map write) ++
          (blanks ++ close :: rest)).length ≤ fuel := by
        rw [List.length_append, List.length_cons] at hfuel
        omega
      have hmore := ih (List.cons_ne_nil _ _) (fun z hz => hread z (List.mem_cons_of_mem _ hz))
        hshort
      exact elements?_comma hclose (hx _ (stops_cons (by decide))) hmore

/-- A sequence that is not empty is read as its elements were written. -/
theorem sequence?_intercalate (rest : List Char) (hclose : Closes close) (hblanks : Blank blanks)
    (hne : as ≠ []) (hopens : ∀ x ∈ as, Opens close (write x))
    (hread : ∀ x ∈ as, ∀ rest, Stops rest → element (write x ++ rest) = some (x, rest)) :
    sequence? element close ([','].intercalate (as.map write) ++ (blanks ++ close :: rest)) =
      some (as, rest) := by
  have hfirst : Opens close ([','].intercalate (as.map write)) := by
    cases as with
    | nil => exact absurd rfl hne
    | cons x as =>
      have hx := hopens x List.mem_cons_self
      cases as with
      | nil =>
        rw [List.map_singleton, List.intercalate_singleton]
        exact hx
      | cons y as =>
        rw [intercalate_map_cons_cons]
        exact hx.append _
  rw [sequence?, mark?_of_opens hfirst]
  exact elements?_intercalate hclose hblanks hne hread le_rfl

end Sequences

/-! ## Values -/

/-- A layout that puts nothing but blanks between the parts of a value. -/
structure LaysBlanks (l : Layout) : Prop where
  gap (depth : Nat) : Blank (l.gap depth)
  space : Blank l.space

/-- An item of an array as it is written. -/
def itemChars (l : Layout) (depth : Nat) (item : Json) : List Char :=
  l.gap depth ++ chars l depth item

/-- A field as it is written. -/
def fieldChars (l : Layout) (depth : Nat) (field : String × Json) : List Char :=
  l.gap depth ++ quote field.1 ++ ':' :: l.space ++ chars l depth field.2

theorem itemsChars_eq (items : List Json) :
    itemsChars l depth items = [','].intercalate (items.map (itemChars l depth)) := by
  induction items with
  | nil => rfl
  | cons item items ih =>
    cases items with
    | nil => rw [itemsChars, List.map_singleton, List.intercalate_singleton, itemChars]
    | cons next items =>
      rw [itemsChars, ih, intercalate_map_cons_cons, itemChars]
      exact List.cons_ne_nil _ _

theorem fieldsChars_eq (fields : List (String × Json)) :
    fieldsChars l depth fields = [','].intercalate (fields.map (fieldChars l depth)) := by
  induction fields with
  | nil => rfl
  | cons field fields ih =>
    obtain ⟨key, value⟩ := field
    cases fields with
    | nil => rw [fieldsChars, List.map_singleton, List.intercalate_singleton, fieldChars]
    | cons next fields =>
      rw [fieldsChars, ih, intercalate_map_cons_cons, fieldChars]
      exact List.cons_ne_nil _ _

/-- A value begins with no mark that closes an array. -/
theorem opens_chars (j : Json) : Opens ']' (chars l depth j) := by
  unfold chars
  cases j with
  | int i => exact opens_intChars i (by decide) (by decide)
  | bool b => cases b <;> exact opens_cons (by decide) (by decide)
  | arr items => cases items <;> exact opens_cons (by decide) (by decide)
  | obj fields => cases fields <;> exact opens_cons (by decide) (by decide)
  | null | str s => exact opens_cons (by decide) (by decide)

/-- Blanks in front of a value say nothing. -/
theorem Blank.value? (h : Blank blanks) (fuel : Nat) (cs : List Char) :
    value? fuel (blanks ++ cs) = value? fuel cs := by
  cases fuel with
  | zero => rfl
  | succ fuel => simp only [Reader.value?, h.mark?, h.scalar?]

variable (hlays : LaysBlanks l)

include hlays

theorem opens_itemChars (item : Json) : Opens ']' (itemChars l depth item) :=
  (opens_chars item).behind (hlays.gap depth)

/-- A field begins with a quote. -/
theorem opens_fieldChars (field : String × Json) : Opens '\x7d' (fieldChars l depth field) := by
  have hquote : Opens '\x7d' (quote field.1) := opens_cons (by decide) (by decide)
  exact ((hquote.behind (hlays.gap depth)).append _).append _

theorem member?_fieldChars {value : List Char → Option (Json × List Char)}
    (field : String × Json)
    (hvalue : value (l.space ++ (chars l depth field.2 ++ rest)) = some (field.2, rest)) :
    member? value (fieldChars l depth field ++ rest) = some (field, rest) := by
  obtain ⟨cs, hcs, htext⟩ := Option.bind_eq_some_iff.mp
    (text?_quote field.1 (':' :: (l.space ++ (chars l depth field.2 ++ rest))))
  have hcolon : isBlank ':' = false := by decide
  have hfield : fieldChars l depth field ++ rest =
      l.gap depth ++ (quote field.1 ++ ':' :: (l.space ++ (chars l depth field.2 ++ rest))) := by
    simp [fieldChars]
  rw [hfield, member?, (hlays.gap depth).mark?]
  simp [hcs, htext, mark?_cons hcolon, hvalue]

omit hlays in
theorem closes_bracket : Closes ']' := ⟨by decide, by decide, by decide⟩

omit hlays in
theorem closes_brace : Closes '\x7d' := ⟨by decide, by decide, by decide⟩

/-- An array is read when each of its items is. -/
theorem value?_arr {items : List Json}
    (hitems : ∀ item ∈ items, ∀ rest, Stops rest →
      value? fuel (chars l (depth + 1) item ++ rest) = some (item, rest)) :
    value? (fuel + 1) (chars l depth (arr items) ++ rest) = some (arr items, rest) := by
  have hblank : isBlank '[' = false := by decide
  cases items with
  | nil =>
    simp [chars, value?, sequence?, mark?_cons hblank, mark?_cons closes_bracket.not_blank]
  | cons item items =>
    have hitem : ∀ x ∈ item :: items, ∀ rest, Stops rest →
        value? fuel (itemChars l (depth + 1) x ++ rest) = some (x, rest) := by
      intro x hmem rest hrest
      rw [itemChars, List.append_assoc, (hlays.gap (depth + 1)).value?]
      exact hitems x hmem rest hrest
    have hread := sequence?_intercalate rest closes_bracket (hlays.gap depth)
      (List.cons_ne_nil item items) (fun x _ => opens_itemChars hlays x) hitem
    rw [List.map_cons] at hread
    rw [chars, itemsChars_eq]
    simp [value?, mark?_cons hblank, hread]

/-- An object is read when each of its values is. -/
theorem value?_obj {fields : List (String × Json)}
    (hfields : ∀ field ∈ fields, ∀ rest, Stops rest →
      value? fuel (chars l (depth + 1) field.2 ++ rest) = some (field.2, rest)) :
    value? (fuel + 1) (chars l depth (obj fields) ++ rest) = some (obj fields, rest) := by
  have hblank : isBlank '\x7b' = false := by decide
  cases fields with
  | nil =>
    simp [chars, value?, sequence?, mark?_cons hblank, mark?_cons closes_brace.not_blank]
  | cons field fields =>
    have hmember : ∀ x ∈ field :: fields, ∀ rest, Stops rest →
        member? (value? fuel) (fieldChars l (depth + 1) x ++ rest) = some (x, rest) := by
      intro x hmem rest hrest
      refine member?_fieldChars hlays x ?_
      rw [hlays.space.value?]
      exact hfields x hmem rest hrest
    have hread := sequence?_intercalate rest closes_brace (hlays.gap depth)
      (List.cons_ne_nil field fields) (fun x _ => opens_fieldChars hlays x) hmember
    rw [List.map_cons] at hread
    rw [chars, fieldsChars_eq]
    simp [value?, mark?_cons hblank, hread]

omit hlays in
/-- What begins with neither bracket is read as a value that holds no other ones. -/
theorem value?_of_opens (hbracket : Opens '[' cs) (hbrace : Opens '\x7b' cs) :
    value? (fuel + 1) (cs ++ rest) = scalar? (cs ++ rest) := by
  simp only [value?, mark?_of_opens hbracket, mark?_of_opens hbrace]

/-- A value is read as it was written, if the fuel is as long as its text: the text of what a
value holds is shorter than its own. -/
theorem value?_chars (hfuel : (chars l depth j).length ≤ fuel) (hrest : Stops rest) :
    value? fuel (chars l depth j ++ rest) = some (j, rest) := by
  induction fuel generalizing j depth rest with
  | zero =>
    obtain ⟨blanks, c, more, hcs, -⟩ : Opens ']' (chars l depth j) := opens_chars j
    simp [hcs] at hfuel
  | succ fuel ih =>
    cases j with
    | null => rfl
    | bool b => cases b <;> rfl
    | int i =>
      have hbracket : Opens '[' (intChars i) := opens_intChars i (by decide) (by decide)
      have hbrace : Opens '\x7b' (intChars i) := opens_intChars i (by decide) (by decide)
      rw [chars, value?_of_opens hbracket hbrace]
      exact scalar?_intChars i hrest
    | str s =>
      have hbracket : Opens '[' (quote s) := opens_cons (by decide) (by decide)
      have hbrace : Opens '\x7b' (quote s) := opens_cons (by decide) (by decide)
      rw [chars, value?_of_opens hbracket hbrace]
      exact scalar?_quote s rest
    | arr items =>
      refine value?_arr hlays fun item hmem rest hrest => ih ?_ hrest
      obtain ⟨first, items, rfl⟩ := List.exists_cons_of_ne_nil (List.ne_nil_of_mem hmem)
      rw [chars, itemsChars_eq] at hfuel
      have hle := length_le_intercalate (itemChars l (depth + 1)) hmem
      simp only [itemChars, List.length_append, List.length_cons] at hfuel hle
      omega
    | obj fields =>
      refine value?_obj hlays fun field hmem rest hrest => ih ?_ hrest
      obtain ⟨first, fields, rfl⟩ := List.exists_cons_of_ne_nil (List.ne_nil_of_mem hmem)
      rw [chars, fieldsChars_eq] at hfuel
      have hle := length_le_intercalate (fieldChars l (depth + 1)) hmem
      simp only [fieldChars, List.length_append, List.length_cons] at hfuel hle
      omega

theorem read?_chars (j : Json) : read? (String.ofList (chars l 0 j)) = some j := by
  have hread : value? (chars l 0 j).length (chars l 0 j ++ []) = some (j, []) :=
    value?_chars hlays le_rfl (by simp [Stops])
  rw [List.append_nil] at hread
  rw [read?, String.toList_ofList, hread]
  rfl

end Reader

/-- The compact text of a value is read as that value. -/
theorem read?_compact (j : Json) : read? j.compact = some j :=
  Reader.read?_chars ⟨fun _ _ hc => absurd hc List.not_mem_nil,
    fun _ hc => absurd hc List.not_mem_nil⟩ j

end Zipship.Json
