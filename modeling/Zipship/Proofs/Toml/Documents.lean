import Zipship.Proofs.Toml.Distinct
import Zipship.Proofs.Toml.Written

/-!
# What is written in a document can be read

A document can be written with a line for each entry of its table, and behind those with a heading
for each table in it and the entries of that below the heading. Reading it gives the table back
(`parse?_document`), whatever its texts and its keys hold.
-/

namespace Zipship.Toml

open Reader

variable {slots inner : Slots} {entries top : Table} {sections : List (String × Table)}
  {key : String} {heading : List String} {e : String × Value} {cs rest : List Char}

/-! ## How a document is written -/

/-- The line of an entry. -/
def lineChars (e : String × Value) : List Char := entryChars e ++ ['\n']

/-- The line that opens a table. -/
def headingChars (key : String) : List Char := '[' :: keyChars key ++ [']', '\n']

/-- The lines of a table with its heading. -/
def sectionChars (s : String × Table) : List Char := headingChars s.1 ++ s.2.flatMap lineChars

/-- A document of some entries and of some tables behind them, each with its heading, and perhaps
with the mark of its encoding in front. -/
def document (marked : Bool) (top : Table) (sections : List (String × Table)) : String :=
  String.ofList ((if marked then ['\ufeff'] else []) ++
    (top.flatMap lineChars ++ sections.flatMap sectionChars))

/-! ## Lines -/

theorem lineContent_heading (key : String) (rest : List Char) :
    lineContent ('[' :: (keyChars key ++ ']' :: rest)) = some (.heading [key], rest) := by
  obtain ⟨c, more, hkey, hc, hne, -⟩ := keyChars_begins key
  have hskip : skip ['[', '['] ('[' :: (keyChars key ++ ']' :: rest)) =
      some (false, '[' :: (keyChars key ++ ']' :: rest)) := by
    refine if_neg ?_
    rw [List.isPrefixOf_iff_prefix, hkey]
    simp [hne.symm]
  have hread : Reader.key (keyChars key ++ ']' :: rest) = some ([key], ']' :: rest) :=
    key_keyChars key (by rintro d ⟨⟩; decide) (blanks_none (by decide) _) (by decide)
  rw [lineContent, run_bind (blanks_none (by decide) _),
    run_bind (show peek ('[' :: _) = some (some '[', _) from rfl)]
  dsimp only
  rw [if_neg (by decide), if_pos rfl, headingLine, run_bind hskip, if_neg (by simp),
    run_bind (expect_self _ _), run_bind hread, run_bind (expect_self _ _)]
  rfl

theorem lineContent_entry (h : Textual maxDepth e.2) (rest : List Char) :
    lineContent (entryChars e ++ '\n' :: rest) = some (.pair [e.1] e.2, '\n' :: rest) := by
  obtain ⟨c, more, hkey, hc, hne, -⟩ := keyChars_begins e.1
  have hread := assignment_entryChars h (value_chars h (c := '\n') (by decide) rest)
  have hbegins : entryChars e ++ '\n' :: rest =
      c :: (more ++ ' ' :: '=' :: ' ' :: e.2.chars ++ '\n' :: rest) := by
    rw [entryChars, hkey]
    simp
  rw [hbegins] at hread ⊢
  rw [lineContent, run_bind (blanks_none hc.not_blank _),
    run_bind (show peek (c :: _) = some (some c, _) from rfl)]
  dsimp only
  rw [if_neg (by simp [hc.not_comment, hc.not_line, hc.not_return]), if_neg hne, run_bind hread]
  rfl

/-- A line is read when its content is, up to the line end behind it. -/
theorem line_of {content : Line} (hne : cs ≠ [])
    (h : lineContent cs = some (content, '\n' :: rest)) : line cs = some (some content, rest) := by
  obtain ⟨c, more, rfl⟩ := List.exists_cons_of_ne_nil hne
  have hend : lineEnd ('\n' :: rest) = some (true, rest) := by
    rw [lineEnd, run_bind (skip_self _ _), if_pos rfl]
    rfl
  rw [line, run_bind (show peek (c :: more) = some (some c, c :: more) from rfl),
    if_neg (by simp), run_bind h, run_bind (blanks_none (by decide) _),
    run_bind (comment_none (by decide) _), run_bind hend,
    run_bind (show peek rest = some (rest.head?, rest) from rfl), if_neg (by simp)]
  rfl

/-- The lines of some entries are read in front of others. -/
theorem repeats_pairs {lines : List Line} (h : ∀ e ∈ entries, Textual maxDepth e.2)
    (hmore : Repeats line cs lines []) :
    Repeats line (entries.flatMap lineChars ++ cs)
      (entries.map (fun e => Line.pair [e.1] e.2) ++ lines) [] := by
  induction entries with
  | nil => exact hmore
  | cons e entries ih =>
    obtain ⟨he, hentries⟩ := List.forall_mem_cons.mp h
    have hread := lineContent_entry he (entries.flatMap lineChars ++ cs)
    rw [List.flatMap_cons, lineChars, List.append_assoc, List.append_assoc, List.singleton_append,
      List.map_cons, List.cons_append]
    refine .more (line_of (by simp) hread) ?_ (ih hentries)
    simp only [List.length_append, List.length_cons]
    omega

/-- The lines of a table with its heading. -/
def sectionLines (s : String × Table) : List Line :=
  .heading [s.1] :: s.2.map fun e => .pair [e.1] e.2

/-- The lines of tables with headings are read to the end of the text. -/
theorem repeats_sections
    (h : ∀ s ∈ sections, ∀ e ∈ s.2, Textual maxDepth e.2) :
    Repeats line (sections.flatMap sectionChars) (sections.flatMap sectionLines) [] := by
  induction sections with
  | nil => exact .stop rfl
  | cons s sections ih =>
    obtain ⟨hs, hsections⟩ := List.forall_mem_cons.mp h
    have hread := lineContent_heading s.1 ('\n' :: (s.2.flatMap lineChars ++
      sections.flatMap sectionChars))
    have htext : (s :: sections).flatMap sectionChars =
        '[' :: (keyChars s.1 ++ ']' :: '\n' :: (s.2.flatMap lineChars ++
          sections.flatMap sectionChars)) := by
      simp [sectionChars, headingChars]
    rw [htext, List.flatMap_cons, sectionLines, List.cons_append]
    refine .more (line_of (by simp) hread) ?_ (repeats_pairs hs (ih hsections))
    simp only [List.length_append, List.length_cons]
    omega

theorem withoutMark_of (h : cs.head? ≠ some '\ufeff') : withoutMark cs = cs := by
  unfold withoutMark
  split
  · exact absurd rfl h
  · rfl

/-! ## Adding lines -/

/-- The entries of a table as they stand in a table under construction. -/
def valueSlots (entries : Table) : Slots := entries.map fun e => (e.1, .value e.2)

theorem map_fst_valueSlots (entries : Table) :
    (valueSlots entries).map Prod.fst = entries.map Prod.fst := by
  simp [valueSlots]

/-- Pairs in front of all headings go into the table of the document. -/
theorem foldlM_top
    (hkeys : (slots.map Prod.fst ++ top.map Prod.fst).Nodup) :
    (top.map fun e => Line.pair [e.1] e.2).foldlM Draft.add? ⟨slots, []⟩ =
      some ⟨slots ++ valueSlots top, []⟩ := by
  induction top generalizing slots with
  | nil => simp [valueSlots]
  | cons e top ih =>
    have hnew : e.1 ∉ slots.map Prod.fst := by
      rw [List.map_cons, List.nodup_append] at hkeys
      exact fun hmem => hkeys.2.2 _ hmem _ List.mem_cons_self rfl
    have hadd : Draft.add? ⟨slots, []⟩ (.pair [e.1] e.2) =
        some ⟨slots ++ [(e.1, .value e.2)], []⟩ := by
      rw [Draft.add?, if_pos rfl, insert?_new hnew]
      rfl
    rw [List.map_cons, List.foldlM_cons, hadd]
    refine (ih (by simpa using hkeys)).trans ?_
    simp [valueSlots]

theorem lookup_snoc (h : key ∉ slots.map Prod.fst) (slot : Slot) :
    (slots ++ [(key, slot)]).lookup key = some slot := by
  rw [List.lookup_append, lookup_eq_none h]
  simp

theorem replace_snoc (h : key ∉ slots.map Prod.fst)
    (slot slot' : Slot) :
    Slots.replace (slots ++ [(key, slot)]) key slot' = slots ++ [(key, slot')] := by
  have hsame : slots.map (fun s => if s.1 = key then (key, slot') else s) = slots := by
    refine (List.map_congr_left fun s hs => if_neg ?_).trans (List.map_id _)
    rintro rfl
    exact h (List.mem_map_of_mem hs)
  rw [Slots.replace, List.map_append, hsame]
  simp

/-- Pairs behind a heading go into its table. -/
theorem foldlM_entries
    (hkey : key ∉ slots.map Prod.fst)
    (hkeys : (inner.map Prod.fst ++ entries.map Prod.fst).Nodup) :
    (entries.map fun e => Line.pair [e.1] e.2).foldlM Draft.add?
        ⟨slots ++ [(key, .table .heading inner)], [key]⟩ =
      some ⟨slots ++ [(key, .table .heading (inner ++ valueSlots entries))], [key]⟩ := by
  induction entries generalizing inner with
  | nil => simp [valueSlots]
  | cons e entries ih =>
    have hnew : e.1 ∉ inner.map Prod.fst := by
      rw [List.map_cons, List.nodup_append] at hkeys
      exact fun hmem => hkeys.2.2 _ hmem _ List.mem_cons_self rfl
    have hadd : Draft.add? ⟨slots ++ [(key, .table .heading inner)], [key]⟩ (.pair [e.1] e.2) =
        some ⟨slots ++ [(key, .table .heading (inner ++ [(e.1, .value e.2)]))], [key]⟩ := by
      rw [Draft.add?, if_neg (by simp), Slots.atHeading?, Slots.inOpened?, lookup_snoc hkey]
      dsimp only
      rw [insert?_new hnew, Option.map_some, replace_snoc hkey]
      rfl
    rw [List.map_cons, List.foldlM_cons, hadd]
    refine (ih (by simpa using hkeys)).trans ?_
    simp [valueSlots]

/-- Each heading opens a table, into which the pairs behind it go. -/
theorem foldlM_sections
    (hkeys : (slots.map Prod.fst ++ sections.map Prod.fst).Nodup)
    (hentries : ∀ s ∈ sections, (s.2.map Prod.fst).Nodup) :
    ∃ last, (sections.flatMap sectionLines).foldlM Draft.add? ⟨slots, heading⟩ =
      some ⟨slots ++ sections.map fun s => (s.1, .table .heading (valueSlots s.2)), last⟩ := by
  induction sections generalizing slots heading with
  | nil => exact ⟨heading, by simp⟩
  | cons s sections ih =>
    obtain ⟨hs, hsections⟩ := List.forall_mem_cons.mp hentries
    have hnew : s.1 ∉ slots.map Prod.fst := by
      rw [List.map_cons, List.nodup_append] at hkeys
      exact fun hmem => hkeys.2.2 _ hmem _ List.mem_cons_self rfl
    have hopen : Draft.add? ⟨slots, heading⟩ (.heading [s.1]) =
        some ⟨slots ++ [(s.1, .table .heading [])], [s.1]⟩ := by
      rw [Draft.add?, Slots.atHeading?, Slots.openTable?, lookup_eq_none hnew]
      rfl
    have hfill : (s.2.map fun e => Line.pair [e.1] e.2).foldlM Draft.add?
        ⟨slots ++ [(s.1, .table .heading [])], [s.1]⟩ =
          some ⟨slots ++ [(s.1, .table .heading (valueSlots s.2))], [s.1]⟩ :=
      foldlM_entries hnew hs
    have hkeys' : ((slots ++ [(s.1, Slot.table .heading (valueSlots s.2))]).map Prod.fst ++
        sections.map Prod.fst).Nodup := by simpa using hkeys
    obtain ⟨last, hlast⟩ := ih hkeys' hsections
    refine ⟨last, ?_⟩
    rw [List.flatMap_cons, List.foldlM_append, sectionLines, List.foldlM_cons, hopen]
    refine (congrArg (· >>= _) hfill).trans (hlast.trans ?_)
    rw [List.append_assoc]
    rfl

/-- Entries and tables that a document can be written of: their values are made of texts, and no key
stands twice in one place. -/
structure Sayable (top : Table) (sections : List (String × Table)) : Prop where
  top_textual : ∀ e ∈ top, Textual maxDepth e.2
  sections_textual : ∀ s ∈ sections, ∀ e ∈ s.2, Textual maxDepth e.2
  keys_nodup : (top.map Prod.fst ++ sections.map Prod.fst).Nodup
  entries_nodup : ∀ s ∈ sections, (s.2.map Prod.fst).Nodup

/-- **A document is read as it was written.** -/
theorem parse?_document (marked : Bool) (h : Sayable top sections) :
    parse? (document marked top sections) =
      some (top ++ sections.map fun s => (s.1, .table s.2)) := by
  have hhead : (top.flatMap lineChars ++ sections.flatMap sectionChars).head? ≠ some '\ufeff' := by
    cases top with
    | nil =>
      cases sections with
      | nil => simp
      | cons s sections => simp [sectionChars, headingChars]
    | cons e top =>
      obtain ⟨c, more, hkey, -, -, -, -, hne⟩ := keyChars_begins e.1
      simp [lineChars, entryChars, hkey, hne]
  have htext : withoutMark (document marked top sections).toList =
      top.flatMap lineChars ++ sections.flatMap sectionChars := by
    rw [document, String.toList_ofList]
    cases marked with
    | true => rfl
    | false => exact withoutMark_of hhead
  have hlines := many_of_repeats (repeats_pairs h.top_textual (repeats_sections h.sections_textual))
  have hkeys : ((valueSlots top).map Prod.fst ++ sections.map Prod.fst).Nodup := by
    rw [map_fst_valueSlots]
    exact h.keys_nodup
  obtain ⟨last, hlast⟩ := foldlM_sections hkeys h.entries_nodup
  have hdraft : (top.map (fun e => Line.pair [e.1] e.2) ++ sections.flatMap sectionLines).foldlM
      Draft.add? ⟨[], []⟩ = some ⟨valueSlots top ++
        sections.map fun s => (s.1, .table .heading (valueSlots s.2)), last⟩ := by
    have htop : (top.map fun e => Line.pair [e.1] e.2).foldlM Draft.add? ⟨[], []⟩ =
        some ⟨valueSlots top, []⟩ := foldlM_top (List.nodup_append.mp h.keys_nodup).1
    rw [List.foldlM_append, htop]
    exact hlast
  rw [parse?, htext, hlines]
  refine (congrArg (Option.bind · _) hdraft).trans ?_
  have hfinish : finishSlots (valueSlots top ++
      sections.map fun s => (s.1, .table .heading (valueSlots s.2))) =
      top ++ sections.map fun s => (s.1, .table s.2) := by
    rw [finishSlots_eq_map, List.map_append, ← finishSlots_eq_map, valueSlots, finishSlots_values,
      List.map_map]
    simp [Slot.finish, valueSlots, finishSlots_values]
  exact congrArg some hfinish

end Zipship.Toml
