import Mathlib.Data.List.Nodup
import Zipship.Toml.Document

/-!
# Documents say nothing twice

In the table that a document denotes no key stands twice, and the same holds of every table in it
(`parse?_distinct`), however it came about: by headings, by dotted keys or between braces. So what a
table says under a key does not depend on how it is searched.

A table under construction is called proper if the finished one has the property. Each way of adding
to a table keeps it proper.
-/

namespace Zipship.Toml

variable {v : Value} {t : Table} {key : String} {path : List String} {origin : Origin} {slot : Slot}
  {slots slots' inner : Slots} {rows rows' : List Slots} {change : Slots → Option Slots}

/-- No table within the value has a key twice. -/
inductive Value.Distinct : Value → Prop
  /-- There is no table within it. -/
  | plain {v : Value} (harray : ∀ items, v ≠ .array items)
      (htable : ∀ entries, v ≠ .table entries) : Distinct v
  | array {items : List Value} (h : ∀ v ∈ items, Distinct v) : Distinct (.array items)
  | table {entries : Table} (hkeys : (entries.map Prod.fst).Nodup)
      (h : ∀ e ∈ entries, Distinct e.2) : Distinct (.table entries)

theorem Value.Distinct.keys (h : (Value.table t).Distinct) : (t.map Prod.fst).Nodup := by
  cases h with
  | plain _ htable => exact absurd rfl (htable t)
  | table hkeys _ => exact hkeys

theorem Value.Distinct.entry (h : (Value.table t).Distinct) {e : String × Value} (he : e ∈ t) :
    e.2.Distinct := by
  cases h with
  | plain _ htable => exact absurd rfl (htable t)
  | table _ h => exact h e he

/-! ## Finished tables -/

theorem finishSlots_eq_map (slots : Slots) :
    finishSlots slots = slots.map fun s => (s.1, s.2.finish) := by
  induction slots with
  | nil => rfl
  | cons s slots ih =>
    obtain ⟨key, slot⟩ := s
    rw [finishSlots, ih, List.map_cons]

theorem finishRows_eq_map (rows : List Slots) :
    finishRows rows = rows.map fun row => .table (finishSlots row) := by
  induction rows with
  | nil => rfl
  | cons row rows ih => rw [finishRows, ih, List.map_cons]

namespace Slots

/-- The finished table has no key twice, and neither has one within it. -/
def Proper (slots : Slots) : Prop := (Value.table (finishSlots slots)).Distinct

theorem proper_iff : Proper slots ↔
    (slots.map Prod.fst).Nodup ∧ ∀ s ∈ slots, s.2.finish.Distinct := by
  have hkeys : (finishSlots slots).map Prod.fst = slots.map Prod.fst := by
    rw [finishSlots_eq_map, List.map_map]
    rfl
  unfold Proper
  constructor
  · intro h
    refine ⟨hkeys ▸ h.keys, fun s hs => ?_⟩
    refine h.entry (e := (s.1, s.2.finish)) ?_
    rw [finishSlots_eq_map]
    exact List.mem_map_of_mem hs
  · rintro ⟨hnodup, hslots⟩
    refine .table (hkeys ▸ hnodup) fun e he => ?_
    rw [finishSlots_eq_map] at he
    obtain ⟨s, hs, rfl⟩ := List.mem_map.mp he
    exact hslots s hs

theorem proper_nil : Proper [] := proper_iff.mpr ⟨List.nodup_nil, by simp⟩

theorem finish_table_distinct : (Slot.table origin inner).finish.Distinct ↔ Proper inner := by
  rw [Slot.finish, Proper]

theorem finish_tables_distinct : (Slot.tables rows).finish.Distinct ↔
    ∀ row ∈ rows, Proper row := by
  rw [Slot.finish, finishRows_eq_map]
  constructor
  · intro h row hrow
    cases h with
    | plain harray _ => exact absurd rfl (harray _)
    | array h => exact h _ (List.mem_map_of_mem hrow)
  · intro h
    refine .array fun v hv => ?_
    obtain ⟨row, hrow, rfl⟩ := List.mem_map.mp hv
    exact h row hrow

theorem Proper.of_lookup (h : Proper slots) (hslot : slots.lookup key = some slot) :
    slot.finish.Distinct := by
  obtain ⟨before, after, rfl, -⟩ := List.lookup_eq_some_iff.mp hslot
  exact (proper_iff.mp h).2 (key, slot) (by simp)

/-- Something may be put under a key that was not there. -/
theorem Proper.snoc (h : Proper slots) (hnew : slots.lookup key = none)
    (hslot : slot.finish.Distinct) : Proper (slots ++ [(key, slot)]) := by
  obtain ⟨hnodup, hslots⟩ := proper_iff.mp h
  refine proper_iff.mpr ⟨?_, ?_⟩
  · rw [List.map_append, List.nodup_append]
    refine ⟨hnodup, List.nodup_singleton _, ?_⟩
    rintro key' hkey' _ hsingle rfl
    obtain rfl := List.mem_singleton.mp hsingle
    obtain ⟨s, hs, hkey⟩ := List.mem_map.mp hkey'
    simpa [hkey] using List.lookup_eq_none_iff.mp hnew s hs
  · intro s hs
    rcases List.mem_append.mp hs with hs | hs
    · exact hslots s hs
    · obtain rfl := List.mem_singleton.mp hs
      exact hslot

/-- What stands under a key may be replaced. -/
theorem Proper.replace (h : Proper slots) (hslot : slot.finish.Distinct) :
    Proper (slots.replace key slot) := by
  obtain ⟨hnodup, hslots⟩ := proper_iff.mp h
  have hkeys : (slots.replace key slot).map Prod.fst = slots.map Prod.fst := by
    unfold Slots.replace
    rw [List.map_map]
    refine List.map_congr_left fun s _ => ?_
    simp only [Function.comp_apply]
    split_ifs with hkey
    · exact hkey.symm
    · rfl
  refine proper_iff.mpr ⟨hkeys ▸ hnodup, fun s hs => ?_⟩
  obtain ⟨old, hold, rfl⟩ := List.mem_map.mp hs
  split_ifs
  · exact hslot
  · exact hslots old hold

/-! ## Adding to tables -/

/-- The change leads from proper tables to proper ones. -/
def KeepsProper (change : Slots → Option Slots) : Prop :=
  ∀ {slots slots'}, Proper slots → change slots = some slots' → Proper slots'

/-- Something is put in place of a table under a key, if a change of that table is possible. -/
theorem Proper.replace_table (h : Proper slots) (hchange : KeepsProper change)
    (hlookup : slots.lookup key = some (.table origin inner))
    (hresult : (change inner).map (fun inner => slots.replace key (.table origin inner)) =
      some slots') : Proper slots' := by
  obtain ⟨inner', hinner', rfl⟩ := Option.map_eq_some_iff.mp hresult
  have hinner := finish_table_distinct.mp (h.of_lookup hlookup)
  exact h.replace (finish_table_distinct.mpr (hchange hinner hinner'))

theorem insert?_keepsProper (hv : v.Distinct) : KeepsProper (insert? v path) := by
  induction path with
  | nil =>
    intro slots slots' _ hinsert
    cases hinsert
  | cons key path ih =>
    intro slots slots' h hinsert
    cases path with
    | nil =>
      unfold insert? at hinsert
      split at hinsert
      · rename_i hnew
        cases hinsert
        exact h.snoc hnew hv
      · cases hinsert
    | cons next path =>
      unfold insert? at hinsert
      split at hinsert
      · rename_i hnew
        obtain ⟨inner, hinner, rfl⟩ := Option.map_eq_some_iff.mp hinsert
        exact h.snoc hnew (finish_table_distinct.mpr (ih proper_nil hinner))
      · rename_i hlookup
        exact h.replace_table ih hlookup hinsert
      · rename_i hlookup
        split_ifs at hinsert
        exact h.replace_table ih hlookup hinsert
      · cases hinsert

/-- The pairs between braces are put into a table one after another. -/
theorem insertAll_proper {pairs : List (List String × Value)} (h : Proper slots)
    (hpairs : ∀ pair ∈ pairs, pair.2.Distinct)
    (hinsert : pairs.foldlM (fun slots (path, v) => insert? v path slots) slots = some slots') :
    Proper slots' := by
  induction pairs generalizing slots with
  | nil =>
    cases hinsert
    exact h
  | cons pair pairs ih =>
    obtain ⟨next, hnext, hinsert⟩ := Option.bind_eq_some_iff.mp hinsert
    obtain ⟨hpair, hpairs⟩ := List.forall_mem_cons.mp hpairs
    exact ih (insert?_keepsProper hpair h hnext) hpairs hinsert

theorem onLast?_proper (hchange : KeepsProper change) (h : ∀ row ∈ rows, Proper row)
    (hlast : onLast? change rows = some rows') : ∀ row ∈ rows', Proper row := by
  unfold onLast? at hlast
  split at hlast
  · cases hlast
  · rename_i last hgetLast
    obtain ⟨changed, hchanged, rfl⟩ := Option.map_eq_some_iff.mp hlast
    intro row hrow
    rcases List.mem_append.mp hrow with hrow | hrow
    · exact h row (List.dropLast_subset rows hrow)
    · obtain rfl := List.mem_singleton.mp hrow
      exact hchange (h last (List.mem_of_getLast? hgetLast)) hchanged

/-- Something is put in place of a list of tables under a key, if a change of its last one is
possible. -/
theorem Proper.replace_tables (h : Proper slots) (hchange : KeepsProper change)
    (hlookup : slots.lookup key = some (.tables rows))
    (hresult : (onLast? change rows).map (fun rows => slots.replace key (.tables rows)) =
      some slots') : Proper slots' := by
  obtain ⟨rows', hrows', rfl⟩ := Option.map_eq_some_iff.mp hresult
  have hrows := finish_tables_distinct.mp (h.of_lookup hlookup)
  exact h.replace (finish_tables_distinct.mpr (onLast?_proper hchange hrows hrows'))

theorem atHeading?_keepsProper {change : String → Slots → Option Slots}
    (hchange : ∀ key, KeepsProper (change key)) : KeepsProper (atHeading? change path) := by
  induction path with
  | nil =>
    intro slots slots' _ hat
    cases hat
  | cons key path ih =>
    intro slots slots' h hat
    cases path with
    | nil => exact hchange key h hat
    | cons next path =>
      unfold atHeading? at hat
      split at hat
      · rename_i hnew
        obtain ⟨inner, hinner, rfl⟩ := Option.map_eq_some_iff.mp hat
        exact h.snoc hnew (finish_table_distinct.mpr (ih proper_nil hinner))
      · rename_i hlookup
        exact h.replace_table ih hlookup hat
      · rename_i hlookup
        exact h.replace_tables ih hlookup hat
      · cases hat

theorem openTable?_keepsProper (key : String) : KeepsProper (openTable? key) := by
  intro slots slots' h hopen
  unfold openTable? at hopen
  split at hopen
  · rename_i hnew
    cases hopen
    exact h.snoc hnew (finish_table_distinct.mpr proper_nil)
  · rename_i hlookup
    cases hopen
    exact h.replace (finish_table_distinct.mpr (finish_table_distinct.mp (h.of_lookup hlookup)))
  · cases hopen

theorem openRow?_keepsProper (key : String) : KeepsProper (openRow? key) := by
  intro slots slots' h hopen
  unfold openRow? at hopen
  split at hopen
  · rename_i hnew
    cases hopen
    exact h.snoc hnew (finish_tables_distinct.mpr fun row hrow => by
      obtain rfl := List.mem_singleton.mp hrow
      exact proper_nil)
  · rename_i rows hlookup
    cases hopen
    refine h.replace (finish_tables_distinct.mpr fun row hrow => ?_)
    rcases List.mem_append.mp hrow with hrow | hrow
    · exact finish_tables_distinct.mp (h.of_lookup hlookup) row hrow
    · obtain rfl := List.mem_singleton.mp hrow
      exact proper_nil
  · cases hopen

theorem inOpened?_keepsProper (hchange : KeepsProper change) (key : String) :
    KeepsProper (inOpened? change key) := by
  intro slots slots' h hopened
  unfold inOpened? at hopened
  split at hopened
  · rename_i hlookup
    exact h.replace_table hchange hlookup hopened
  · rename_i hlookup
    exact h.replace_tables hchange hlookup hopened
  · cases hopened

end Slots

/-! ## Reading values -/

namespace Reader

variable {α β : Type} {P : α → Prop} {Q : β → Prop} {r : Reader α} {f : α → Reader β}

/-- The reader gives nothing but what satisfies `P`. -/
def Yields (r : Reader α) (P : α → Prop) : Prop := ∀ cs a cs', r cs = some (a, cs') → P a

theorem yields_any : Yields r fun _ => True := fun _ _ _ _ => trivial

theorem yields_pure {a : α} (h : P a) : Yields (pure a : Reader α) P := by
  intro cs b cs' hread
  cases hread
  exact h

theorem yields_refuse : Yields (refuse : Reader α) P := by
  intro cs a cs' hread
  cases hread

theorem Yields.bind (hr : Yields r P) (hf : ∀ a, P a → Yields (f a) Q) :
    Yields (r >>= f) Q := by
  intro cs b cs' hread
  obtain ⟨⟨a, rest⟩, hfirst, hread⟩ := Option.bind_eq_some_iff.mp hread
  exact hf a (hr _ _ _ hfirst) _ _ _ hread

/-- What comes first does not matter. -/
theorem yields_after (hf : ∀ a, Yields (f a) Q) : Yields (r >>= f) Q :=
  yields_any.bind fun a _ => hf a

theorem yields_ite {c : Prop} [Decidable c] {r r' : Reader α} (h : Yields r P) (h' : Yields r' P) :
    Yields (if c then r else r') P := by
  split_ifs
  · exact h
  · exact h'

/-- What is read again and again satisfies what each step gives. -/
theorem yields_many {step : Reader (Option α)} (h : Yields step fun a => ∀ b, a = some b → P b) :
    Yields (many step) fun as => ∀ a ∈ as, P a := by
  have hloop (fuel : Nat) : Yields (loop step fuel) fun as => ∀ a ∈ as, P a := by
    induction fuel with
    | zero => exact yields_refuse
    | succ fuel ih =>
      refine h.bind fun a ha => ?_
      cases a with
      | none => exact yields_pure (by simp)
      | some a =>
        refine ih.bind fun as has => yields_pure ?_
        exact List.forall_mem_cons.mpr ⟨ha a rfl, has⟩
  exact yields_after fun rest => hloop _

theorem yields_bracketed {close : Char} {item : Reader α} (h : Yields item P) :
    Yields (bracketed close item) fun as => ∀ a ∈ as, P a := by
  refine yields_after fun _ => Yields.bind (P := fun as => ∀ a ∈ as, P a) (yields_many ?_)
    fun as has => yields_after fun _ => yields_pure has
  refine yields_after fun next => yields_ite (yields_pure (by simp)) ?_
  exact h.bind fun a ha => yields_after fun _ => yields_after fun _ => yields_after fun _ =>
    yields_pure (by rintro _ ⟨⟩; exact ha)

theorem yields_assignment {item : Reader α} (h : Yields item P) :
    Yields (assignment item) fun pair => P pair.2 :=
  yields_after fun _ => yields_after fun _ => yields_after fun _ =>
    h.bind fun _ ha => yields_pure ha

theorem string_distinct (s : String) : (Value.string s).Distinct := .plain (by simp) (by simp)

theorem wordValue?_distinct {cs : List Char} (h : wordValue? cs = some v) : v.Distinct := by
  unfold wordValue? at h
  split_ifs at h
  · cases h
    exact .plain (by simp) (by simp)
  · cases h
    exact .plain (by simp) (by simp)
  · cases h
    exact .plain (by simp) (by simp)
  · split at h
    · cases h
      exact .plain (by simp) (by simp)
    · obtain ⟨x, -, rfl⟩ := Option.map_eq_some_iff.mp h
      exact .plain (by simp) (by simp)

/-- What was made out of a word, if anything was. -/
theorem yields_ofOption {o : Option Value} (h : ∀ v, o = some v → v.Distinct) :
    Yields (match o with
      | some v => pure v
      | none => refuse) Value.Distinct := by
  cases o with
  | some v => exact yields_pure (h v rfl)
  | none => exact yields_refuse

theorem yields_word : Yields word Value.Distinct :=
  yields_after fun _ => yields_after fun _ => yields_ite
    (yields_after fun _ => yields_after fun _ => yields_after fun _ =>
      yields_ofOption fun _ hv => wordValue?_distinct hv)
    (yields_after fun _ => yields_ofOption fun _ hv => wordValue?_distinct hv)

theorem yields_scalar : Yields scalar Value.Distinct := by
  refine yields_after fun double => ?_
  cases double with
  | some cs => exact yields_pure (string_distinct _)
  | none =>
    refine yields_after fun single => ?_
    cases single with
    | some cs => exact yields_pure (string_distinct _)
    | none => exact yields_word

/-- A value that is read has no table with a key twice. -/
theorem yields_value (depth : Nat) : Yields (value depth) Value.Distinct := by
  induction depth with
  | zero => exact yields_scalar
  | succ depth ih =>
    unfold value
    refine yields_after fun opened => yields_ite ?_
      (yields_after fun braced => yields_ite ?_ yields_scalar)
    · exact (yields_bracketed ih).bind fun items hitems => yields_pure (.array hitems)
    · refine Yields.bind (P := fun pairs => ∀ pair ∈ pairs, pair.2.Distinct)
        (yields_bracketed (yields_assignment ih)) fun pairs hpairs => ?_
      split
      · rename_i slots hslots
        exact yields_pure (Slots.insertAll_proper Slots.proper_nil hpairs hslots)
      · exact yields_refuse

/-- The value of a line has no table with a key twice. -/
def Line.Distinct : Line → Prop
  | .pair _ v => v.Distinct
  | _ => True

theorem yields_headingLine : Yields headingLine Line.Distinct := by
  refine yields_after fun double => yields_ite ?_ ?_
  · exact yields_after fun path => yields_after fun _ => yields_after fun _ => yields_pure trivial
  · exact yields_after fun _ => yields_after fun path => yields_after fun _ => yields_pure trivial

theorem yields_lineContent : Yields lineContent Line.Distinct := by
  refine yields_after fun _ => yields_after fun next => ?_
  cases next with
  | none => exact yields_pure trivial
  | some c =>
    refine yields_ite (yields_pure trivial) (yields_ite yields_headingLine ?_)
    exact (yields_assignment (yields_value maxDepth)).bind fun _ hv => yields_pure hv

theorem yields_line : Yields line fun content => ∀ l, content = some l → l.Distinct := by
  refine yields_after fun next => yields_ite (yields_pure (by simp)) ?_
  refine yields_lineContent.bind fun l hl => yields_after fun _ => yields_after fun _ =>
    yields_after fun ended => yields_after fun next => ?_
  have hline : Yields (pure (some l)) fun content => ∀ l, content = some l → l.Distinct :=
    yields_pure (by rintro _ ⟨⟩; exact hl)
  exact yields_ite (yields_refuse.bind (P := fun _ => True) fun _ _ => hline) hline

end Reader

/-! ## Reading documents -/

namespace Draft

variable {d d' : Draft} {l : Reader.Line}

theorem add?_proper (hd : d.slots.Proper) (hl : l.Distinct) (h : d.add? l = some d') :
    d'.slots.Proper := by
  cases l with
  | empty =>
    cases h
    exact hd
  | pair path v =>
    obtain ⟨slots, hslots, rfl⟩ := Option.map_eq_some_iff.mp h
    split_ifs at hslots
    · exact Slots.insert?_keepsProper hl hd hslots
    · exact Slots.atHeading?_keepsProper
        (Slots.inOpened?_keepsProper (Slots.insert?_keepsProper hl)) hd hslots
  | heading path =>
    obtain ⟨slots, hslots, rfl⟩ := Option.map_eq_some_iff.mp h
    exact Slots.atHeading?_keepsProper Slots.openTable?_keepsProper hd hslots
  | rowHeading path =>
    obtain ⟨slots, hslots, rfl⟩ := Option.map_eq_some_iff.mp h
    exact Slots.atHeading?_keepsProper Slots.openRow?_keepsProper hd hslots

theorem addAll_proper {lines : List Reader.Line} (hd : d.slots.Proper)
    (hlines : ∀ l ∈ lines, l.Distinct) (h : lines.foldlM Draft.add? d = some d') :
    d'.slots.Proper := by
  induction lines generalizing d with
  | nil =>
    cases h
    exact hd
  | cons l lines ih =>
    obtain ⟨next, hnext, h⟩ := Option.bind_eq_some_iff.mp h
    obtain ⟨hl, hlines⟩ := List.forall_mem_cons.mp hlines
    exact ih (add?_proper hd hl hnext) hlines h

end Draft

/-- **No key of a document stands twice**, neither in the table that it denotes nor in a table
within that. -/
theorem parse?_distinct {text : String} (h : parse? text = some t) : (Value.table t).Distinct := by
  obtain ⟨⟨lines, rest⟩, hlines, h⟩ := Option.bind_eq_some_iff.mp h
  obtain ⟨d, hd, h⟩ := Option.bind_eq_some_iff.mp h
  cases h
  exact Draft.addAll_proper Slots.proper_nil (Reader.yields_many Reader.yields_line _ _ _ hlines) hd

end Zipship.Toml
