import Mathlib.Tactic.Common
import Zipship.Digest.Hex
import Zipship.Toml.Document

/-!
# What is written in a value can be read

Texts, lists and tables can be written on one line: a text between double quotes, in which only what
has to be escaped is; a list or a table between brackets, with commas between its parts; a key with
quotes if it needs them. A reader takes what was written from the front and stops behind it
(`value_chars`), unless a quote follows: two quotes and a third one would open a text of several
lines.

Whatever is read again and again is read in steps (`Repeats`), each of which takes something.
-/

namespace Zipship.Toml

/-- How a character is written between double quotes. -/
def escaped (c : Char) : List Char :=
  if Reader.isControl c then
    ['\\', 'u', '0', '0', Digest.hexDigit (c.toNat / 16), Digest.hexDigit (c.toNat % 16)]
  else if c = '"' ∨ c = '\\' then ['\\', c]
  else [c]

/-- A text between double quotes. -/
def quoted (s : String) : List Char := '"' :: s.toList.flatMap escaped ++ ['"']

/-- A key, with quotes if it needs them. -/
def keyChars (key : String) : List Char :=
  if key ≠ "" ∧ key.toList.all Reader.isKeyChar then key.toList else quoted key

/-- The parts with commas between them. -/
def listed : List (List Char) → List Char
  | [] => []
  | [part] => part
  | part :: rest => part ++ ',' :: ' ' :: listed rest

mutual

/-- A value on one line. -/
def Value.chars : Value → List Char
  | .string s => quoted s
  | .array items => '[' :: listed (itemsChars items) ++ [']']
  | .table entries => '\x7b' :: listed (entriesChars entries) ++ ['\x7d']
  | _ => []

/-- The items of a list. -/
def itemsChars : List Value → List (List Char)
  | [] => []
  | v :: rest => v.chars :: itemsChars rest

/-- The entries of a table. -/
def entriesChars : List (String × Value) → List (List Char)
  | [] => []
  | (key, v) :: rest => (keyChars key ++ ' ' :: '=' :: ' ' :: v.chars) :: entriesChars rest

end

namespace Reader

variable {α β : Type} {r : Reader α} {f : α → Reader β} {step : Reader (Option α)} {a : α}
  {as : List α} {c d close : Char} {cs cs' behind rest : List Char}

/-- What a reader gives is handed to the next one. -/
theorem run_bind (h : r cs = some (a, cs')) : (r >>= f) cs = f a cs' := by
  show (r cs).bind _ = _
  rw [h]
  rfl

/-- Steps are read one after another, each of which takes something, until one says that it was the
last. -/
inductive Repeats (step : Reader (Option α)) : List Char → List α → List Char → Prop
  | stop {cs rest : List Char} (h : step cs = some (none, rest)) : Repeats step cs [] rest
  | more {cs next rest : List Char} {a : α} {as : List α} (h : step cs = some (some a, next))
      (hshort : next.length < cs.length) (hmore : Repeats step next as rest) :
      Repeats step cs (a :: as) rest

theorem loop_of_repeats (h : Repeats step cs as rest) {fuel : Nat} (hfuel : cs.length < fuel) :
    loop step fuel cs = some (as, rest) := by
  induction h generalizing fuel with
  | stop h =>
    obtain ⟨fuel, rfl⟩ := Nat.exists_eq_add_of_le' (Nat.one_le_of_lt hfuel)
    rw [loop, run_bind h]
    rfl
  | more h hshort _ ih =>
    obtain ⟨fuel, rfl⟩ := Nat.exists_eq_add_of_le' (Nat.one_le_of_lt hfuel)
    rw [loop, run_bind h]
    dsimp only
    rw [run_bind (ih (by omega))]
    rfl

/-- Reading again and again goes through all the steps. -/
theorem many_of_repeats (h : Repeats step cs as rest) : many step cs = some (as, rest) :=
  loop_of_repeats h (Nat.lt_succ_self _)

theorem skip_self (c : Char) (cs : List Char) : skip [c] (c :: cs) = some (true, cs) := by
  simp [skip]

theorem skip_other (h : d ≠ c) (cs : List Char) : skip [c] (d :: cs) = some (false, d :: cs) := by
  simp [skip, h.symm]

theorem expect_self (c : Char) (cs : List Char) : expect c (c :: cs) = some (⟨⟩, cs) := by
  rw [expect, run_bind (show next (c :: cs) = some (c, cs) from rfl), if_neg (by simp)]
  rfl

/-! ## Texts -/

/-- The escape of a control character is read as the number that it holds. -/
theorem codePoint_of_isControl (h : isControl c = true) (rest : List Char) :
    codePoint 4 ('0' :: '0' :: Digest.hexDigit (c.toNat / 16) :: Digest.hexDigit (c.toNat % 16) ::
      rest) = some (c, rest) := by
  have hsmall : c.toNat < 256 := by
    unfold isControl at h
    simp only [Bool.or_eq_true, Bool.and_eq_true, decide_eq_true_eq] at h
    omega
  have hhex : ∀ a < 16, hexValue? (Digest.hexDigit a) = some a := by decide
  have hzero : hexValue? '0' = some 0 := by decide
  have hsplit : 16 * (c.toNat / 16) + c.toNat % 16 = c.toNat := Nat.div_add_mod c.toNat 16
  have hvalid : c.toNat.isValidChar := c.valid
  simp [codePoint, hexNumber?, hzero, hhex (c.toNat / 16) (by omega),
    hhex (c.toNat % 16) (by omega), hsplit, hvalid]

/-- A character is read as it was written. -/
theorem lineChar_escaped (c : Char) (rest : List Char) :
    lineChar '"' (escaped c ++ rest) = some (some c, rest) := by
  unfold escaped
  split_ifs with hcontrol hmark
  · have hpoint := codePoint_of_isControl hcontrol rest
    have hescape : escape ('u' :: '0' :: '0' :: Digest.hexDigit (c.toNat / 16) ::
        Digest.hexDigit (c.toNat % 16) :: rest) = some (c, rest) := by
      rw [escape, run_bind (show next _ = some ('u', _) from rfl)]
      exact hpoint
    rw [lineChar]
    simp only [List.cons_append, List.nil_append]
    rw [run_bind (show next _ = some ('\\', _) from rfl), if_neg (by decide), if_pos (by decide),
      run_bind hescape]
    rfl
  · rcases hmark with rfl | rfl <;> rfl
  · obtain ⟨hquote, hslash⟩ := not_or.mp hmark
    rw [lineChar]
    simp only [List.cons_append, List.nil_append]
    rw [run_bind (show next _ = some (c, _) from rfl), if_neg hquote, if_neg (by simp [hslash]),
      if_neg hcontrol]
    rfl

/-- Every character is written as one or more, of which the first is no quote. -/
theorem escaped_eq_cons (c : Char) : ∃ first more, escaped c = first :: more ∧ first ≠ '"' := by
  unfold escaped
  split_ifs with hcontrol hmark
  · exact ⟨_, _, rfl, by decide⟩
  · exact ⟨_, _, rfl, by decide⟩
  · exact ⟨_, _, rfl, fun hquote => hmark (Or.inl hquote)⟩

/-- A text is read as it was written. -/
theorem lineText_flatMap (text rest : List Char) :
    lineText '"' (text.flatMap escaped ++ '"' :: rest) = some (text, rest) := by
  refine many_of_repeats ?_
  induction text with
  | nil => exact .stop rfl
  | cons c text ih =>
    rw [List.flatMap_cons, List.append_assoc]
    refine .more (lineChar_escaped c _) ?_ ih
    obtain ⟨first, more, hfirst, -⟩ := escaped_eq_cons c
    simp only [hfirst, List.cons_append, List.length_cons, List.length_append]
    omega

/-! ## Blanks -/

/-- A character with which something begins, and not blanks, a comment or the end of a line. -/
structure Begins (c : Char) : Prop where
  not_blank : isBlank c = false
  not_comment : c ≠ '#'
  not_line : c ≠ '\n'
  not_return : c ≠ '\r'

instance : Decidable (Begins c) :=
  decidable_of_iff (isBlank c = false ∧ c ≠ '#' ∧ c ≠ '\n' ∧ c ≠ '\r')
    ⟨fun ⟨hblank, hcomment, hline, hreturn⟩ => ⟨hblank, hcomment, hline, hreturn⟩,
      fun h => ⟨h.not_blank, h.not_comment, h.not_line, h.not_return⟩⟩

theorem blanks_none (h : isBlank c = false) (cs : List Char) :
    blanks (c :: cs) = some (⟨⟩, c :: cs) := by
  rw [blanks, run_bind (show takeWhile isBlank (c :: cs) = some ([], c :: cs) by
    simp [takeWhile, h])]
  rfl

theorem blanks_one (h : isBlank c = false) (cs : List Char) :
    blanks (' ' :: c :: cs) = some (⟨⟩, c :: cs) := by
  have hspace : isBlank ' ' = true := by decide
  rw [blanks, run_bind (show takeWhile isBlank (' ' :: c :: cs) = some ([' '], c :: cs) by
    simp [takeWhile, h, hspace])]
  rfl

theorem comment_none (h : c ≠ '#') (cs : List Char) : comment (c :: cs) = some (⟨⟩, c :: cs) := by
  rw [comment, run_bind (show peek (c :: cs) = some (some c, c :: cs) from rfl),
    if_neg (by simpa using h)]
  rfl

theorem lineEnd_none (h : Begins c) (cs : List Char) :
    lineEnd (c :: cs) = some (false, c :: cs) := by
  rw [lineEnd, run_bind (skip_other h.not_line cs), if_neg (by simp)]
  simp [skip, h.not_return.symm]

/-- Where something begins no lines are skipped, only the blanks in front of it. -/
theorem blankLines_of (h : Begins c) (hblanks : blanks rest = some (⟨⟩, c :: cs)) :
    blankLines rest = some (⟨⟩, c :: cs) := by
  have hstop : Repeats blankLine rest [] (c :: cs) := by
    refine .stop ?_
    rw [blankLine, run_bind hblanks, run_bind (comment_none h.not_comment cs),
      run_bind (lineEnd_none h cs)]
    rfl
  rw [blankLines, run_bind (many_of_repeats hstop)]
  rfl

/-! ## Keys -/

theorem isKeyChar_ne (h : isKeyChar c = true) (hd : isKeyChar d = false) : c ≠ d := by
  rintro rfl
  rw [hd] at h
  cases h

/-- A key begins with a character that begins nothing else. -/
theorem keyChars_begins (key : String) : ∃ c cs, keyChars key = c :: cs ∧ Begins c ∧
    c ≠ '[' ∧ c ≠ '=' ∧ c ≠ '\x7d' ∧ c ≠ '\ufeff' := by
  unfold keyChars
  split_ifs with hbare
  · obtain ⟨hne, hall⟩ := hbare
    cases hkey : key.toList with
    | nil => exact absurd (String.toList_eq_nil_iff.mp hkey) hne
    | cons c cs =>
      rw [hkey, List.all_cons, Bool.and_eq_true] at hall
      have hc {d : Char} (hd : isKeyChar d = false) : c ≠ d := isKeyChar_ne hall.1 hd
      refine ⟨c, cs, rfl, ⟨?_, hc (by decide), hc (by decide), hc (by decide)⟩, hc (by decide),
        hc (by decide), hc (by decide), hc (by decide)⟩
      simp [isBlank, hc (d := ' ') (by decide), hc (d := '\t') (by decide)]
  · exact ⟨'"', _, rfl, by decide, by decide, by decide, by decide, by decide⟩

/-- A text between double quotes is read as it was written. -/
theorem keyText_quoted (s : String) (rest : List Char) :
    keyText (quoted s ++ rest) = some (s.toList, rest) := by
  rw [quoted, List.append_assoc, List.cons_append, keyText, run_bind (skip_self _ _), if_pos rfl]
  exact lineText_flatMap _ _

/-- So is a key that needs no quotes. -/
theorem keyText_bare {cs : List Char} (hne : cs ≠ []) (hall : ∀ c ∈ cs, isKeyChar c = true)
    (hrest : ∀ d ∈ rest.head?, isKeyChar d = false) : keyText (cs ++ rest) = some (cs, rest) := by
  obtain ⟨c, more, rfl⟩ := List.exists_cons_of_ne_nil hne
  have hc := hall c List.mem_cons_self
  have htake : takeWhile isKeyChar (c :: more ++ rest) = some (c :: more, rest) := by
    have hstop : rest.takeWhile isKeyChar = [] ∧ rest.dropWhile isKeyChar = rest := by
      cases rest with
      | nil => exact ⟨rfl, rfl⟩
      | cons d rest => simp [hrest d rfl]
    rw [takeWhile, List.takeWhile_append_of_pos hall, List.dropWhile_append_of_pos hall, hstop.1,
      hstop.2, List.append_nil]
  rw [keyText, List.cons_append, run_bind (skip_other (isKeyChar_ne hc (by decide)) _),
    if_neg (by simp), run_bind (skip_other (isKeyChar_ne hc (by decide)) _), if_neg (by simp)]
  rw [← List.cons_append, run_bind htake, if_neg (by simp)]
  rfl

/-- A key is read as it was written, with the blanks behind it. -/
theorem keyPart_keyChars (key : String) (hrest : ∀ d ∈ rest.head?, isKeyChar d = false)
    (hblanks : blanks rest = some (⟨⟩, cs)) :
    keyPart (keyChars key ++ rest) = some (key, cs) := by
  obtain ⟨first, more, hkey, hbegins, -⟩ := keyChars_begins key
  have htext : keyText (keyChars key ++ rest) = some (key.toList, rest) := by
    unfold keyChars
    split_ifs with hbare
    · exact keyText_bare (mt String.toList_eq_nil_iff.mp hbare.1) (List.all_eq_true.mp hbare.2)
        hrest
    · exact keyText_quoted key rest
  have hfirst : blanks (keyChars key ++ rest) = some (⟨⟩, keyChars key ++ rest) := by
    rw [hkey]
    exact blanks_none hbegins.not_blank _
  rw [keyPart, run_bind hfirst, run_bind htext, run_bind hblanks, String.ofList_toList]
  rfl

/-- A key without dots is read as it was written. -/
theorem key_keyChars (key : String) (hrest : ∀ d ∈ rest.head?, isKeyChar d = false)
    (hblanks : blanks rest = some (⟨⟩, c :: cs)) (hdot : c ≠ '.') :
    Reader.key (keyChars key ++ rest) = some ([key], c :: cs) := by
  have hstop : Repeats dottedPart (c :: cs) [] (c :: cs) := by
    refine .stop ?_
    rw [dottedPart, run_bind (skip_other hdot cs)]
    rfl
  rw [Reader.key, run_bind (keyPart_keyChars key hrest hblanks), run_bind (many_of_repeats hstop)]
  rfl

/-! ## Values -/

/-- What is written begins with a character other than the given mark. -/
def Opens (close : Char) (cs : List Char) : Prop :=
  ∃ c more, cs = c :: more ∧ Begins c ∧ c ≠ close

theorem blankLines_opens (h : Opens close cs) (rest : List Char) :
    blankLines (cs ++ rest) = some (⟨⟩, cs ++ rest) ∧
      blankLines (' ' :: (cs ++ rest)) = some (⟨⟩, cs ++ rest) := by
  obtain ⟨c, more, rfl, hc, -⟩ := h
  exact ⟨blankLines_of hc (blanks_none hc.not_blank _),
    blankLines_of hc (blanks_one hc.not_blank _)⟩

theorem separator_close (h : close ≠ ',') (rest : List Char) :
    separator close (close :: rest) = some (⟨⟩, close :: rest) := by
  rw [separator, run_bind (skip_other h rest),
    run_bind (show peek (close :: rest) = some (some close, close :: rest) from rfl),
    if_neg (by simp)]
  rfl

theorem separator_comma (rest : List Char) : separator close (',' :: rest) = some (⟨⟩, rest) := by
  rw [separator, run_bind (skip_self ',' rest),
    run_bind (show peek rest = some (rest.head?, rest) from rfl), if_neg (by simp)]
  rfl

/-- An item is read with what separates it from others. -/
theorem bracketedItem_of {item : Reader α} (hopens : Opens close cs) (hc : Begins c)
    (hitem : item (cs ++ c :: rest) = some (a, c :: rest))
    (hbehind : separator close (c :: rest) = some (⟨⟩, cs'))
    (hlines : blankLines cs' = some (⟨⟩, behind)) :
    bracketedItem close item (cs ++ c :: rest) = some (some a, behind) := by
  obtain ⟨first, more, rfl, -, hne⟩ := hopens
  have hpeek : peek (first :: more ++ c :: rest) = some (some first, first :: more ++ c :: rest) :=
    rfl
  rw [bracketedItem, run_bind hpeek, if_neg (by simpa using hne), run_bind hitem,
    run_bind (blankLines_of hc (blanks_none hc.not_blank _)), run_bind hbehind, run_bind hlines]
  rfl

theorem Opens.append (h : Opens close cs) (more : List Char) : Opens close (cs ++ more) := by
  obtain ⟨c, others, rfl, hc, hne⟩ := h
  exact ⟨c, others ++ more, rfl, hc, hne⟩

theorem opens_listed {part : List Char} (h : Opens close part) (parts : List (List Char)) :
    Opens close (listed (part :: parts)) := by
  cases parts with
  | nil => exact h
  | cons other parts => exact h.append _

section Items

variable {item : Reader α} {write : α → List Char} (hclose : Begins close) (hcomma : close ≠ ',')
  (hquote : close ≠ '"')
  (hitem : ∀ a ∈ as, ∀ c rest, c ≠ '"' → item (write a ++ c :: rest) = some (a, c :: rest))
  (hopens : ∀ a ∈ as, Opens close (write a)) (rest : List Char)

include hclose hcomma hquote hitem hopens

/-- Items are read one by one, each with the comma behind it, up to the closing bracket. -/
theorem repeats_listed : Repeats (bracketedItem close item)
    (listed (as.map write) ++ close :: rest) as (close :: rest) := by
  induction as with
  | nil =>
    have hpeek : peek (close :: rest) = some (some close, close :: rest) := rfl
    refine .stop ?_
    rw [List.map_nil, listed, List.nil_append, bracketedItem, run_bind hpeek, if_pos rfl]
    rfl
  | cons a as ih =>
    obtain ⟨ha, has⟩ := List.forall_mem_cons.mp hopens
    obtain ⟨hread, hreads⟩ := List.forall_mem_cons.mp hitem
    have hmore := ih hreads has
    have hpos : 0 < (write a).length := by
      obtain ⟨c, more, hcs, -⟩ := ha
      simp [hcs]
    cases as with
    | nil =>
      refine .more (bracketedItem_of ha hclose (hread _ _ hquote) (separator_close hcomma rest)
        (blankLines_of hclose (blanks_none hclose.not_blank _))) ?_ hmore
      simp only [List.map_cons, List.map_nil, listed, List.length_append]
      omega
    | cons b as =>
      have hnext := opens_listed (has b List.mem_cons_self) (as.map write)
      have htext : listed ((a :: b :: as).map write) ++ close :: rest =
          write a ++ ',' :: (' ' :: (listed ((b :: as).map write) ++ close :: rest)) := by
        simp [listed]
      rw [htext]
      refine .more (bracketedItem_of ha (by decide) (hread _ _ (by decide)) (separator_comma _)
        (blankLines_opens hnext _).2) ?_ hmore
      simp only [List.map_cons, List.length_append, List.length_cons]
      omega

/-- Items are read as they were written, with commas between them. -/
theorem bracketed_listed :
    bracketed close item (listed (as.map write) ++ close :: rest) = some (as, rest) := by
  have hstart : blankLines (listed (as.map write) ++ close :: rest) =
      some (⟨⟩, listed (as.map write) ++ close :: rest) := by
    cases as with
    | nil => exact blankLines_of hclose (blanks_none hclose.not_blank _)
    | cons a as => exact (blankLines_opens (opens_listed (hopens a List.mem_cons_self) _) _).1
  have hitems := repeats_listed hclose hcomma hquote hitem hopens rest
  rw [bracketed, run_bind hstart, run_bind (many_of_repeats hitems), run_bind (expect_self _ _)]
  rfl

end Items

/-- A pair is read if what is behind its equals sign is. -/
theorem assignment_of {item : Reader α} (key : String) (hopens : Opens close cs)
    (hitem : item (cs ++ rest) = some (a, cs')) :
    assignment item (keyChars key ++ ' ' :: '=' :: ' ' :: (cs ++ rest)) =
      some (([key], a), cs') := by
  have hkey : Reader.key (keyChars key ++ ' ' :: '=' :: ' ' :: (cs ++ rest)) =
      some ([key], '=' :: ' ' :: (cs ++ rest)) :=
    key_keyChars key (by rintro d ⟨⟩; decide) (blanks_one (by decide) _) (by decide)
  have hblanks : blanks (' ' :: (cs ++ rest)) = some (⟨⟩, cs ++ rest) := by
    obtain ⟨c, more, rfl, hc, -⟩ := hopens
    exact blanks_one hc.not_blank _
  rw [assignment, run_bind hkey, run_bind (expect_self _ _), run_bind hblanks, run_bind hitem]
  rfl

end Reader

/-- The value is made of texts, in arrays and tables that are nested no deeper. -/
inductive Textual : Nat → Value → Prop
  | string (depth : Nat) (s : String) : Textual depth (.string s)
  | array {depth : Nat} {items : List Value} (h : ∀ v ∈ items, Textual depth v) :
      Textual (depth + 1) (.array items)
  | table {depth : Nat} {entries : Table} (hkeys : (entries.map Prod.fst).Nodup)
      (h : ∀ e ∈ entries, Textual depth e.2) : Textual (depth + 1) (.table entries)

theorem itemsChars_eq (items : List Value) : itemsChars items = items.map Value.chars := by
  induction items with
  | nil => rfl
  | cons v items ih => rw [itemsChars, ih, List.map_cons]

/-- An entry of a table on one line. -/
def entryChars (e : String × Value) : List Char := keyChars e.1 ++ ' ' :: '=' :: ' ' :: e.2.chars

theorem entriesChars_eq (entries : Table) : entriesChars entries = entries.map entryChars := by
  induction entries with
  | nil => rfl
  | cons e entries ih =>
    obtain ⟨key, v⟩ := e
    rw [entriesChars, ih, List.map_cons, entryChars]

open Reader

variable {c : Char} {rest : List Char} {slots : Slots} {key : String}

theorem Textual.opens {depth : Nat} {v : Value} (h : Textual depth v) : Opens ']' v.chars := by
  cases h with
  | string => exact ⟨'"', _, rfl, by decide, by decide⟩
  | array => exact ⟨'[', _, by rw [Value.chars]; rfl, by decide, by decide⟩
  | table => exact ⟨'\x7b', _, by rw [Value.chars]; rfl, by decide, by decide⟩

theorem opens_entryChars (e : String × Value) : Opens '\x7d' (entryChars e) := by
  obtain ⟨c, cs, hkey, hc, -, -, hne, -⟩ := keyChars_begins e.1
  exact ⟨c, _, by rw [entryChars, hkey]; rfl, hc, hne⟩

theorem lookup_eq_none (h : key ∉ slots.map Prod.fst) :
    slots.lookup key = none := by
  rw [List.lookup_eq_none_iff]
  intro s hs
  simp only [bne_iff_ne, ne_eq]
  rintro rfl
  exact h (List.mem_map_of_mem hs)

theorem insert?_new (h : key ∉ slots.map Prod.fst) (v : Value) :
    Slots.insert? v [key] slots = some (slots ++ [(key, .value v)]) := by
  rw [Slots.insert?, lookup_eq_none h]

/-- Pairs under different keys make the table of these pairs. -/
theorem foldlM_insert? (entries : Table) (slots : Slots)
    (hkeys : (slots.map Prod.fst ++ entries.map Prod.fst).Nodup) :
    (entries.map fun e => ([e.1], e.2)).foldlM
        (fun (slots : Slots) (path, v) => Slots.insert? v path slots) slots =
      some (slots ++ entries.map fun e => (e.1, .value e.2)) := by
  induction entries generalizing slots with
  | nil => simp
  | cons e entries ih =>
    have hnew : e.1 ∉ slots.map Prod.fst := by
      rw [List.map_cons, List.nodup_append] at hkeys
      exact fun hmem => hkeys.2.2 _ hmem _ List.mem_cons_self rfl
    rw [List.map_cons, List.foldlM_cons]
    dsimp only
    rw [insert?_new hnew]
    refine (ih (slots ++ [(e.1, .value e.2)]) ?_).trans ?_
    · simpa using hkeys
    · simp

theorem finishSlots_values (entries : Table) :
    finishSlots (entries.map fun e => (e.1, .value e.2)) = entries := by
  induction entries with
  | nil => rfl
  | cons e entries ih => rw [List.map_cons, finishSlots, ih, Slot.finish]

theorem scalar_quoted (s : String) (hc : c ≠ '"') (rest : List Char) :
    scalar (quoted s ++ c :: rest) = some (.string s, c :: rest) := by
  have hlong : skip (List.replicate 3 '"') (quoted s ++ c :: rest) =
      some (false, quoted s ++ c :: rest) := by
    refine if_neg ?_
    rw [List.isPrefixOf_iff_prefix, quoted]
    cases hs : s.toList with
    | nil => simp [List.replicate, hc.symm]
    | cons d ds =>
      obtain ⟨first, more, hfirst, hne⟩ := escaped_eq_cons d
      simp [List.replicate, hfirst, hne.symm]
  have htext : quotedText '"' (quoted s ++ c :: rest) = some (some s.toList, c :: rest) := by
    rw [quotedText, run_bind hlong, if_neg (by simp)]
    rw [quoted, List.append_assoc, List.cons_append, List.singleton_append,
      run_bind (skip_self _ _), if_pos rfl, run_bind (lineText_flatMap _ _)]
    rfl
  simp only [scalar, run_bind htext, String.ofList_toList]
  rfl

/-- An entry is read as it was written if its value is. -/
theorem assignment_entryChars {depth : Nat} {e : String × Value} (h : Textual depth e.2)
    (hread : value depth (e.2.chars ++ c :: rest) = some (e.2, c :: rest)) :
    assignment (value depth) (entryChars e ++ c :: rest) = some (([e.1], e.2), c :: rest) := by
  have hassign := assignment_of e.1 h.opens hread
  rwa [entryChars, List.append_assoc]

/-- **A value is read as it was written**, up to what follows, which is no quote. -/
theorem value_chars {depth : Nat} {v : Value} (h : Textual depth v) (hc : c ≠ '"')
    (rest : List Char) : value depth (v.chars ++ c :: rest) = some (v, c :: rest) := by
  induction h generalizing c rest with
  | string depth s =>
    rw [Value.chars]
    cases depth with
    | zero => exact scalar_quoted s hc rest
    | succ depth =>
      have hother {d : Char} (hd : '"' ≠ d) : skip [d] (quoted s ++ c :: rest) =
          some (false, quoted s ++ c :: rest) := skip_other hd _
      rw [value, run_bind (hother (by decide)), if_neg (by simp), run_bind (hother (by decide)),
        if_neg (by simp)]
      exact scalar_quoted s hc rest
  | @array depth items hitems ih =>
    have hread : bracketed ']' (value depth) (listed (items.map Value.chars) ++ ']' :: c :: rest) =
        some (items, c :: rest) :=
      bracketed_listed (by decide) (by decide) (by decide) (fun v hv _ rest hc => ih v hv hc rest)
        (fun v hv => (hitems v hv).opens) _
    have htext : (Value.array items).chars ++ c :: rest =
        '[' :: (listed (items.map Value.chars) ++ ']' :: c :: rest) := by
      rw [Value.chars, itemsChars_eq]
      simp
    rw [htext, value, run_bind (skip_self _ _), if_pos rfl, run_bind hread]
    rfl
  | @table depth entries hkeys hentries ih =>
    -- what is read between the braces are pairs: the list of entries with each key as a path
    have hpairs : bracketed '\x7d' (assignment (value depth))
        (listed ((entries.map fun e => ([e.1], e.2)).map fun pair =>
          entryChars (pair.1.headD "", pair.2)) ++ '\x7d' :: c :: rest) =
        some (entries.map fun e => ([e.1], e.2), c :: rest) := by
      refine bracketed_listed (by decide) (by decide) (by decide) (fun pair hpair c rest hc => ?_)
        (fun _ _ => opens_entryChars _) _
      obtain ⟨e, he, rfl⟩ := List.mem_map.mp hpair
      exact assignment_entryChars (hentries e he) (ih e he hc rest)
    have hsame : ((entries.map fun e => ([e.1], e.2)).map fun pair : List String × Value =>
        entryChars (pair.1.headD "", pair.2)) = entries.map entryChars := by
      rw [List.map_map]
      rfl
    rw [hsame] at hpairs
    have htext : (Value.table entries).chars ++ c :: rest =
        '\x7b' :: (listed (entries.map entryChars) ++ '\x7d' :: c :: rest) := by
      rw [Value.chars, entriesChars_eq]
      simp
    rw [htext, value, run_bind (skip_other (by decide) _), if_neg (by simp),
      run_bind (skip_self _ _), if_pos rfl, run_bind hpairs]
    simp only [foldlM_insert? entries [] (by simpa using hkeys), List.nil_append,
      finishSlots_values]
    rfl

end Zipship.Toml
