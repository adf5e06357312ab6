import Zipship.Config.Layers
import Zipship.Proofs.Config.Entries
import Zipship.Tree.Layout

/-!
# What a file sets

A document is a configuration exactly if each entry of its table is `Admitted`: it has the key of a
setting and a value of the right shape. Then the configuration `Reflects` the table: what is said
there is set unchanged, and everything else has its default. Otherwise the error is that of the
first entry, in byte order of the keys, that is `Refused` (`ofFile_reads`).

There is one way to say something that is not set. The settings of the tests may be given as a list,
and what stands in the list behind the last setting is dropped (`ofFile_drops_surplus`).
-/

namespace Zipship

open Toml (Value Table)

/-! ## The settings of the tests -/

namespace TestSettings

open Config

variable {key : String} {v : Value} {e : Unfit} {s s' : TestSettings} {entries entries' : Table}

/-- The key is that of a setting, and the value has its shape. -/
inductive Admitted : String → Value → Prop
  | runner (texts : List String) : Admitted "runner" (writeTexts texts)
  | args (texts : List String) : Admitted "args" (writeTexts texts)
  | coverageModule (text : String) : Admitted "coverage_module" (.string text)
  | coverageConfig (text : String) : Admitted "coverage_config" (.string text)

/-- Why something is not a setting: no setting has the key, or the value is of another shape. -/
inductive Refused : String → Value → Unfit → Prop
  | unknown {key : String} {v : Value} (h : key ∉ keys) : Refused key v (.unknownKey key keys)
  | texts {key : String} {v : Value} {e : Unfit} (hkey : key = "runner" ∨ key = "args")
      (h : TextsRefused v e) : Refused key v e
  | text {v : Value} (h : ∀ s, v ≠ .string s) :
      Refused "coverage_module" v (.wrongShape v .text)
  | path {v : Value} (h : ∀ s, v ≠ .string s) :
      Refused "coverage_config" v (.wrongShape v .path)

/-- The settings are those of the table, with defaults for the others. -/
structure Reflects (s : TestSettings) (entries : Table) : Prop where
  runner : Reads entries "runner" SaysTexts default.runner s.runner
  args : Reads entries "args" SaysTexts default.args s.args
  coverageModule : Reads entries "coverage_module" SaysText default.coverageModule s.coverageModule
  coverageConfig :
    Reads entries "coverage_config" SaysPath default.coverageConfig s.coverageConfig

theorem set_ok_iff : (∃ s', s.set key v = .ok s') ↔ Admitted key v := by
  constructor
  · rintro ⟨s', h⟩
    unfold set at h
    split at h
    · obtain ⟨texts, htexts, -⟩ := bind_pure_ok.mp h
      exact readTexts_ok_iff.mp htexts ▸ .runner texts
    · obtain ⟨texts, htexts, -⟩ := bind_pure_ok.mp h
      exact readTexts_ok_iff.mp htexts ▸ .args texts
    · obtain ⟨text, htext, -⟩ := bind_pure_ok.mp h
      exact readText_ok_iff.mp htext ▸ .coverageModule text
    · obtain ⟨path, hpath, -⟩ := bind_pure_ok.mp h
      obtain ⟨text, rfl, -⟩ := readPath_ok_iff.mp hpath
      exact .coverageConfig text
    · cases h
  · rintro (texts | texts | text | text)
    · exact ⟨_, bind_pure_ok.mpr ⟨texts, readTexts_ok_iff.mpr rfl, rfl⟩⟩
    · exact ⟨_, bind_pure_ok.mpr ⟨texts, readTexts_ok_iff.mpr rfl, rfl⟩⟩
    · exact ⟨_, rfl⟩
    · exact ⟨_, rfl⟩

theorem set_error_iff : s.set key v = .error e ↔ Refused key v e := by
  constructor
  · intro h
    unfold set at h
    split at h
    · exact .texts (Or.inl rfl) (readTexts_error_iff.mp (bind_pure_error.mp h))
    · exact .texts (Or.inr rfl) (readTexts_error_iff.mp (bind_pure_error.mp h))
    · obtain ⟨hshape, rfl⟩ := readText_error_iff.mp (bind_pure_error.mp h)
      exact .text hshape
    · obtain ⟨hshape, rfl⟩ := readPath_error_iff.mp (bind_pure_error.mp h)
      exact .path hshape
    · cases h
      exact .unknown (by simp_all [keys])
  · intro h
    cases h with
    | unknown h =>
      unfold set
      split
      all_goals first | rfl | exact absurd (by decide) h
    | texts hkey h =>
      rcases hkey with rfl | rfl
      · exact bind_pure_error.mpr (readTexts_error_iff.mpr h)
      · exact bind_pure_error.mpr (readTexts_error_iff.mpr h)
    | text h => exact bind_pure_error.mpr (readText_error_iff.mpr ⟨h, rfl⟩)
    | path h => exact bind_pure_error.mpr (readPath_error_iff.mpr ⟨h, rfl⟩)

theorem Reflects.set (h : s.Reflects entries) (hnew : key ∉ entries.map Prod.fst)
    (hset : s.set key v = .ok s') : s'.Reflects (entries ++ [(key, v)]) := by
  unfold TestSettings.set at hset
  split at hset
  · obtain ⟨texts, htexts, rfl⟩ := bind_pure_ok.mp hset
    exact ⟨reads_snoc hnew (readTexts_ok_iff.mp htexts), h.args.snoc (by decide),
      h.coverageModule.snoc (by decide), h.coverageConfig.snoc (by decide)⟩
  · obtain ⟨texts, htexts, rfl⟩ := bind_pure_ok.mp hset
    exact ⟨h.runner.snoc (by decide), reads_snoc hnew (readTexts_ok_iff.mp htexts),
      h.coverageModule.snoc (by decide), h.coverageConfig.snoc (by decide)⟩
  · obtain ⟨text, htext, rfl⟩ := bind_pure_ok.mp hset
    exact ⟨h.runner.snoc (by decide), h.args.snoc (by decide),
      reads_snoc hnew (readText_ok_iff.mp htext), h.coverageConfig.snoc (by decide)⟩
  · obtain ⟨path, hpath, rfl⟩ := bind_pure_ok.mp hset
    exact ⟨h.runner.snoc (by decide), h.args.snoc (by decide), h.coverageModule.snoc (by decide),
      reads_snoc hnew (readPath_ok_iff.mp hpath)⟩
  · cases hset

theorem decides : ∀ x ∈ entries, Decides
    (fun (s : TestSettings) (x : String × Value) => s.set x.1 x.2)
    (fun x => Admitted x.1 x.2) (fun x => Refused x.1 x.2) x :=
  fun _ _ _ => ⟨set_ok_iff, fun _ => set_error_iff⟩

theorem Reflects.of_perm (h : s.Reflects entries) (hperm : entries.Perm entries') :
    s.Reflects entries' :=
  ⟨h.runner.of_perm hperm, h.args.of_perm hperm, h.coverageModule.of_perm hperm,
    h.coverageConfig.of_perm hperm⟩

theorem Reflects.unique (h : s.Reflects entries) (h' : s'.Reflects entries) : s = s' := by
  obtain ⟨runner, args, coverageModule, ⟨coverageConfig⟩⟩ := s
  obtain ⟨runner', args', coverageModule', ⟨coverageConfig'⟩⟩ := s'
  obtain rfl : runner = runner' := h.runner.unique saysTexts_functional h'.runner
  obtain rfl : args = args' := h.args.unique saysTexts_functional h'.args
  obtain rfl : coverageModule = coverageModule' :=
    h.coverageModule.unique saysText_functional h'.coverageModule
  obtain rfl : coverageConfig = coverageConfig' :=
    Path.mk.inj (h.coverageConfig.unique saysPath_functional h'.coverageConfig)
  rfl

/-- Settings that are set from entries with different keys are those of the entries. -/
theorem setAll_reflects (hnodup : (entries.map Prod.fst).Nodup)
    (h : default.setAll entries = .ok s) : s.Reflects entries := by
  have hdefault : default.Reflects [] := ⟨reads_nil, reads_nil, reads_nil, reads_nil⟩
  have hall : s.Reflects ([] ++ entries) :=
    foldlM_reflects (fun _ _ _ _ _ hs hnew hset => hs.set hnew hset) hnodup hdefault h
  exact hall

end TestSettings

namespace Config

variable {key : String} {v : Value} {entries table : Table} {items : List Value} {e : Unfit}
  {settings : TestSettings} {c c' : Config}

/-- The entries that a value stands for which gives the settings of the tests: those of a table, or
those of a list in the order in which the settings are declared. -/
inductive StandsFor : Value → Table → Prop
  | table (entries : Table) : StandsFor (.table entries) entries
  | list (items : List Value) : StandsFor (.array items) (TestSettings.keys.zip items)

/-- Why a value does not give the settings of the tests. -/
inductive SettingsRefused : Value → Unfit → Prop
  | entry {entries : Table} {e : Unfit}
      (h : FirstRefusedByKey TestSettings.Admitted TestSettings.Refused entries e) :
      SettingsRefused (.table entries) e
  | item {items : List Value} {e : Unfit}
      (h : FirstRefused (fun x => TestSettings.Admitted x.1 x.2)
        (fun x => TestSettings.Refused x.1 x.2) (TestSettings.keys.zip items) e) :
      SettingsRefused (.array items) e
  /-- A date is taken for a table with a key of its own. -/
  | date (text : String) :
      SettingsRefused (.date text) (.unknownKey TestSettings.dateKey TestSettings.keys)
  | shape {v : Value} (htable : ∀ entries, v ≠ .table entries) (hlist : ∀ items, v ≠ .array items)
      (hdate : ∀ text, v ≠ .date text) : SettingsRefused v (.wrongShape v .testSettings)

theorem keys_zip_nodup (items : List Value) :
    ((TestSettings.keys.zip items).map Prod.fst).Nodup := by
  rw [List.zip_eq_zip_take_min, List.map_fst_zip (by simp)]
  exact (List.take_sublist _ _).nodup (by decide)

theorem readTestSettings_ok_iff (hv : v.Distinct) :
    (∃ settings, readTestSettings v = .ok settings) ↔
      ∃ entries, StandsFor v entries ∧ ∀ x ∈ entries, TestSettings.Admitted x.1 x.2 := by
  cases v with
  | table entries =>
    have hmem : ∀ x, x ∈ inKeyOrder entries ↔ x ∈ entries :=
      fun x => (inKeyOrder_perm entries).mem_iff
    refine (foldlM_ok_iff TestSettings.decides).trans ⟨fun h => ?_, ?_⟩
    · exact ⟨entries, .table entries, fun x hx => h x ((hmem x).mpr hx)⟩
    · rintro ⟨_, ⟨⟩, h⟩ x hx
      exact h x ((hmem x).mp hx)
  | array items =>
    refine (foldlM_ok_iff TestSettings.decides).trans ⟨fun h => ⟨_, .list items, h⟩, ?_⟩
    rintro ⟨_, ⟨⟩, h⟩
    exact h
  | _ =>
    constructor
    · rintro ⟨_, ⟨⟩⟩
    · rintro ⟨_, ⟨⟩, _⟩

theorem readTestSettings_error_iff (hv : v.Distinct) :
    readTestSettings v = .error e ↔ SettingsRefused v e := by
  cases v with
  | table entries =>
    refine (foldlM_error_iff TestSettings.decides).trans
      ((firstRefused_inKeyOrder hv.keys).trans ⟨.entry, fun h => ?_⟩)
    cases h with
    | entry h => exact h
    | shape htable => exact absurd rfl (htable entries)
  | array items =>
    refine (foldlM_error_iff TestSettings.decides).trans ⟨.item, fun h => ?_⟩
    cases h with
    | item h => exact h
    | shape _ hlist => exact absurd rfl (hlist items)
  | date text =>
    constructor
    · rintro ⟨⟩
      exact .date text
    · intro h
      cases h with
      | date => rfl
      | shape _ _ hdate => exact absurd rfl (hdate text)
  | _ =>
    constructor
    · rintro ⟨⟩
      exact .shape (by simp) (by simp) (by simp)
    · rintro ⟨⟩
      rfl

theorem readTestSettings_reflects (hv : v.Distinct) (h : readTestSettings v = .ok settings) :
    ∃ entries, StandsFor v entries ∧ settings.Reflects entries := by
  cases v with
  | table entries =>
    have hreflects := TestSettings.setAll_reflects (inKeyOrder_nodup hv.keys) h
    exact ⟨entries, .table entries, hreflects.of_perm (inKeyOrder_perm entries)⟩
  | array items =>
    exact ⟨_, .list items, TestSettings.setAll_reflects (keys_zip_nodup items) h⟩
  | _ => cases h

/-- The key is that of a setting, and the value has its shape. -/
inductive Admitted : String → Value → Prop
  | python (text : String) : Admitted "python" (.string text)
  | name (text : String) : Admitted "name" (.string text)
  | src (text : String) : Admitted "src" (.string text)
  | test {v : Value} {entries : Table} (h : StandsFor v entries)
      (hentries : ∀ x ∈ entries, TestSettings.Admitted x.1 x.2) : Admitted "test" v

/-- Why something is not a setting: no setting has the key, or the value is of another shape. -/
inductive Refused : String → Value → Unfit → Prop
  | unknown {key : String} {v : Value} (h : key ∉ keys) : Refused key v (.unknownKey key keys)
  | text {key : String} {v : Value} (hkey : key = "python" ∨ key = "name")
      (h : ∀ s, v ≠ .string s) : Refused key v (.wrongShape v .text)
  | path {v : Value} (h : ∀ s, v ≠ .string s) : Refused "src" v (.wrongShape v .path)
  | test {v : Value} {e : Unfit} (h : SettingsRefused v e) : Refused "test" v e

/-- The settings of the tests are those that stand under their key, or else the default ones. -/
def ReadsTests (table : Table) (settings : TestSettings) : Prop :=
  (∀ v, ("test", v) ∈ table → ∃ entries, StandsFor v entries ∧ settings.Reflects entries) ∧
    ("test" ∉ table.map Prod.fst → settings = .default)

/-- The configuration is that of the table, with defaults for what the table does not say. -/
structure Reflects (c : Config) (table : Table) : Prop where
  root : c.root = ⟨"."⟩
  python : Reads table "python" SaysText default.python c.python
  name : Reads table "name" SaysText default.name c.name
  src : Reads table "src" SaysPath default.src c.src
  test : ReadsTests table c.test

theorem set_ok_iff (hv : v.Distinct) : (∃ c', c.set key v = .ok c') ↔ Admitted key v := by
  constructor
  · rintro ⟨c', h⟩
    unfold set at h
    split at h
    · obtain ⟨text, htext, -⟩ := bind_pure_ok.mp h
      exact readText_ok_iff.mp htext ▸ .python text
    · obtain ⟨text, htext, -⟩ := bind_pure_ok.mp h
      exact readText_ok_iff.mp htext ▸ .name text
    · obtain ⟨path, hpath, -⟩ := bind_pure_ok.mp h
      obtain ⟨text, rfl, -⟩ := readPath_ok_iff.mp hpath
      exact .src text
    · obtain ⟨settings, hsettings, -⟩ := bind_pure_ok.mp h
      obtain ⟨entries, hstands, hentries⟩ := (readTestSettings_ok_iff hv).mp ⟨_, hsettings⟩
      exact .test hstands hentries
    · cases h
  · rintro (text | text | text | ⟨hstands, hentries⟩)
    · exact ⟨_, rfl⟩
    · exact ⟨_, rfl⟩
    · exact ⟨_, rfl⟩
    · obtain ⟨settings, hsettings⟩ := (readTestSettings_ok_iff hv).mpr ⟨_, hstands, hentries⟩
      exact ⟨_, bind_pure_ok.mpr ⟨settings, hsettings, rfl⟩⟩

theorem set_error_iff (hv : v.Distinct) : c.set key v = .error e ↔ Refused key v e := by
  constructor
  · intro h
    unfold set at h
    split at h
    · obtain ⟨hshape, rfl⟩ := readText_error_iff.mp (bind_pure_error.mp h)
      exact .text (Or.inl rfl) hshape
    · obtain ⟨hshape, rfl⟩ := readText_error_iff.mp (bind_pure_error.mp h)
      exact .text (Or.inr rfl) hshape
    · obtain ⟨hshape, rfl⟩ := readPath_error_iff.mp (bind_pure_error.mp h)
      exact .path hshape
    · exact .test ((readTestSettings_error_iff hv).mp (bind_pure_error.mp h))
    · cases h
      exact .unknown (by simp_all [keys])
  · intro h
    cases h with
    | unknown h =>
      unfold set
      split
      all_goals first | rfl | exact absurd (by decide) h
    | text hkey h =>
      rcases hkey with rfl | rfl
      · exact bind_pure_error.mpr (readText_error_iff.mpr ⟨h, rfl⟩)
      · exact bind_pure_error.mpr (readText_error_iff.mpr ⟨h, rfl⟩)
    | path h => exact bind_pure_error.mpr (readPath_error_iff.mpr ⟨h, rfl⟩)
    | test h => exact bind_pure_error.mpr ((readTestSettings_error_iff hv).mpr h)

theorem StandsFor.unique {entries' : Table} (h : StandsFor v entries) (h' : StandsFor v entries') :
    entries = entries' := by
  cases h <;> cases h' <;> rfl

theorem readsTests_snoc (hnew : "test" ∉ table.map Prod.fst) (hv : v.Distinct)
    (h : readTestSettings v = .ok settings) : ReadsTests (table ++ [("test", v)]) settings := by
  refine ⟨fun v' hv' => ?_, fun habsent => absurd (by simp) habsent⟩
  rcases List.mem_append.mp hv' with hv' | hv'
  · exact absurd (List.mem_map_of_mem hv') hnew
  · obtain ⟨-, rfl⟩ := Prod.mk.inj (List.mem_singleton.mp hv')
    exact readTestSettings_reflects hv h

/-- What is said about other settings does not matter. -/
theorem ReadsTests.snoc (h : ReadsTests table settings) (hne : "test" ≠ key) :
    ReadsTests (table ++ [(key, v)]) settings := by
  refine ⟨fun v' hv' => ?_, fun habsent => h.2 ?_⟩
  · rcases List.mem_append.mp hv' with hv' | hv'
    · exact h.1 v' hv'
    · exact absurd (Prod.mk.inj (List.mem_singleton.mp hv')).1 hne
  · simp only [List.map_append, List.mem_append, not_or] at habsent
    exact habsent.1

theorem ReadsTests.of_perm {table' : Table} (h : ReadsTests table settings)
    (hperm : table.Perm table') : ReadsTests table' settings :=
  ⟨fun v hv => h.1 v (hperm.mem_iff.mpr hv),
    fun habsent => h.2 fun hmem => habsent ((hperm.map _).mem_iff.mp hmem)⟩

theorem ReadsTests.unique {settings' : TestSettings} (h : ReadsTests table settings)
    (h' : ReadsTests table settings') : settings = settings' := by
  by_cases hkey : "test" ∈ table.map Prod.fst
  · obtain ⟨⟨_, v⟩, hv, rfl⟩ := List.mem_map.mp hkey
    obtain ⟨entries, hstands, hreflects⟩ := h.1 v hv
    obtain ⟨entries', hstands', hreflects'⟩ := h'.1 v hv
    obtain rfl := hstands.unique hstands'
    exact hreflects.unique hreflects'
  · rw [h.2 hkey, h'.2 hkey]

theorem Reflects.set (h : c.Reflects table) (hnew : key ∉ table.map Prod.fst) (hv : v.Distinct)
    (hset : c.set key v = .ok c') : c'.Reflects (table ++ [(key, v)]) := by
  unfold Config.set at hset
  split at hset
  · obtain ⟨text, htext, rfl⟩ := bind_pure_ok.mp hset
    exact ⟨h.root, reads_snoc hnew (readText_ok_iff.mp htext), h.name.snoc (by decide),
      h.src.snoc (by decide), h.test.snoc (by decide)⟩
  · obtain ⟨text, htext, rfl⟩ := bind_pure_ok.mp hset
    exact ⟨h.root, h.python.snoc (by decide), reads_snoc hnew (readText_ok_iff.mp htext),
      h.src.snoc (by decide), h.test.snoc (by decide)⟩
  · obtain ⟨path, hpath, rfl⟩ := bind_pure_ok.mp hset
    exact ⟨h.root, h.python.snoc (by decide), h.name.snoc (by decide),
      reads_snoc hnew (readPath_ok_iff.mp hpath), h.test.snoc (by decide)⟩
  · obtain ⟨settings, hsettings, rfl⟩ := bind_pure_ok.mp hset
    exact ⟨h.root, h.python.snoc (by decide), h.name.snoc (by decide), h.src.snoc (by decide),
      readsTests_snoc hnew hv hsettings⟩
  · cases hset

theorem Reflects.of_perm {table' : Table} (h : c.Reflects table) (hperm : table.Perm table') :
    c.Reflects table' :=
  ⟨h.root, h.python.of_perm hperm, h.name.of_perm hperm, h.src.of_perm hperm,
    h.test.of_perm hperm⟩

theorem reflects_nil : default.Reflects [] :=
  ⟨rfl, reads_nil, reads_nil, reads_nil, by simp, fun _ => rfl⟩

/-- A table says only one configuration. -/
theorem Reflects.unique (h : c.Reflects table) (h' : c'.Reflects table) : c = c' := by
  obtain ⟨root, python, name, ⟨src⟩, test⟩ := c
  obtain ⟨root', python', name', ⟨src'⟩, test'⟩ := c'
  obtain rfl : root = root' := h.root.trans h'.root.symm
  obtain rfl : python = python' := h.python.unique saysText_functional h'.python
  obtain rfl : name = name' := h.name.unique saysText_functional h'.name
  obtain rfl : src = src' := Path.mk.inj (h.src.unique saysPath_functional h'.src)
  obtain rfl : test = test' := h.test.unique h'.test
  rfl

section Tables

variable (hdistinct : (Value.table table).Distinct)

include hdistinct

theorem decides : ∀ x ∈ inKeyOrder table, Decides
    (fun (c : Config) (x : String × Value) => c.set x.1 x.2)
    (fun x => Admitted x.1 x.2) (fun x => Refused x.1 x.2) x := by
  intro x hx c
  have hv := hdistinct.entry ((inKeyOrder_perm table).mem_iff.mp hx)
  exact ⟨set_ok_iff hv, fun _ => set_error_iff hv⟩

/-- A table is a configuration exactly if each of its entries is admitted. -/
theorem ofTable_isOk_iff :
    (∃ c, ofTable table = .ok c) ↔ ∀ key v, (key, v) ∈ table → Admitted key v := by
  refine (foldlM_ok_iff (decides hdistinct)).trans ⟨fun h key v hv => ?_, fun h x hx => ?_⟩
  · exact h (key, v) ((inKeyOrder_perm table).mem_iff.mpr hv)
  · exact h x.1 x.2 ((inKeyOrder_perm table).mem_iff.mp hx)

theorem ofTable_error_iff : ofTable table = .error e ↔ FirstRefusedByKey Admitted Refused table e :=
  (foldlM_error_iff (decides hdistinct)).trans (firstRefused_inKeyOrder hdistinct.keys)

theorem ofTable_reflects (h : ofTable table = .ok c) : c.Reflects table := by
  have hall : c.Reflects ([] ++ inKeyOrder table) :=
    foldlM_reflects (fun x hx _ _ _ hc hnew hset =>
      hc.set hnew (hdistinct.entry ((inKeyOrder_perm table).mem_iff.mp hx)) hset)
      (inKeyOrder_nodup hdistinct.keys) reflects_nil h
  exact hall.of_perm (inKeyOrder_perm table)

/-- What a table says is what is read from it. -/
theorem ofTable_ok_iff : ofTable table = .ok c ↔
    (∀ key v, (key, v) ∈ table → Admitted key v) ∧ c.Reflects table := by
  constructor
  · intro h
    exact ⟨(ofTable_isOk_iff hdistinct).mp ⟨c, h⟩, ofTable_reflects hdistinct h⟩
  · rintro ⟨hadmitted, hreflects⟩
    obtain ⟨c', h⟩ := (ofTable_isOk_iff hdistinct).mpr hadmitted
    rwa [hreflects.unique (ofTable_reflects hdistinct h)]

end Tables

section Files

variable {t : Tree} {cwd : Loc} {file : Path} {content : Bytes} {text : String}

/-- The configuration in a file is that of its text. -/
theorem ofFile_eq (hread : t.read cwd file = .ok content) (htext : content.toString? = some text) :
    ofFile t cwd file = ofText file text := by
  have hexists : t.exists? cwd file = true := by
    obtain ⟨node, hnode, -⟩ := bind_eq_ok.mp hread
    unfold Tree.exists?
    rw [hnode]
    rfl
  unfold ofFile
  rw [if_pos hexists, hread]
  simp only [Except.mapError, bind, Except.bind, htext]

/-- **A file sets what it says.** It is a configuration exactly if each entry of its table has the
key of a setting and a value of the right shape. Then every setting that it has is that of the
configuration, every other setting has its default, and the root is the working directory. Otherwise
the error is that of the first entry that is refused, in byte order of the keys, and within a list
that of the first item. -/
theorem ofFile_reads (hread : t.read cwd file = .ok content) (htext : content.toString? = some text)
    (hparse : Toml.parse? text = some table) :
    ((∃ c, ofFile t cwd file = .ok c) ↔ ∀ key v, (key, v) ∈ table → Admitted key v) ∧
    (∀ c, ofFile t cwd file = .ok c → c.Reflects table) ∧
    ∀ err, ofFile t cwd file = .error err ↔
      ∃ e, FirstRefusedByKey Admitted Refused table e ∧ err = .unfit file e.message := by
  have hdistinct := Toml.parse?_distinct hparse
  have heq : ofFile t cwd file = (ofTable table).mapError fun e => .unfit file e.message := by
    rw [ofFile_eq hread htext, ofText, hparse]
  rw [heq]
  refine ⟨?_, fun c h => ofTable_reflects hdistinct (mapError_eq_ok h), fun err => ?_⟩
  · rw [← ofTable_isOk_iff hdistinct]
    cases ofTable table <;> simp [Except.mapError]
  · rw [exists_congr fun e => and_congr_left' (ofTable_error_iff hdistinct).symm]
    cases ofTable table <;> simp [Except.mapError, eq_comm]

/-- A project whose file names the artifact, and an argument for the runner by a dotted key. -/
def dotted : Tree :=
  Tree.placeAll [] [.file ⟨"/p/zipship.toml"⟩
    (Bytes.ofString "name = 'tool'\ntest.args = ['-q']\n") 0o644] Tree.empty

/-- The table that its file denotes. -/
def isDotted : Option Table → Bool
  | some [(key, .string name), (key', .table [(key'', .array [.string arg])])] =>
    decide ((key, name, key', key'', arg) = ("name", "tool", "test", "args", "-q"))
  | _ => false

set_option maxRecDepth 100000 in
theorem ofFile_reads_dotted : ∃ c, ofFile dotted [] ⟨"/p/zipship.toml"⟩ = .ok c ∧
    c.Reflects [("name", .string "tool"), ("test", .table [("args", writeTexts ["-q"])])] := by
  have hread : dotted.read [] ⟨"/p/zipship.toml"⟩ =
      .ok (Bytes.ofString "name = 'tool'\ntest.args = ['-q']\n") := by decide +kernel
  have htext : (Bytes.ofString "name = 'tool'\ntest.args = ['-q']\n").toString? =
      some "name = 'tool'\ntest.args = ['-q']\n" := by decide +kernel
  have hparse : Toml.parse? "name = 'tool'\ntest.args = ['-q']\n" =
      some [("name", .string "tool"), ("test", .table [("args", writeTexts ["-q"])])] := by
    have hshape : isDotted (Toml.parse? "name = 'tool'\ntest.args = ['-q']\n") = true := by
      decide +kernel
    unfold isDotted at hshape
    split at hshape
    · rename_i hparse
      have heq := of_decide_eq_true hshape
      simp only [Prod.mk.injEq] at heq
      obtain ⟨rfl, rfl, rfl, rfl, rfl⟩ := heq
      exact hparse
    · cases hshape
  obtain ⟨hok, hreflects, -⟩ := ofFile_reads hread htext hparse
  obtain ⟨c, hc⟩ := hok.mpr fun key v hv => by
    rcases List.mem_cons.mp hv with heq | hv
    · obtain ⟨rfl, rfl⟩ := Prod.mk.inj heq
      exact .name "tool"
    · obtain ⟨rfl, rfl⟩ := Prod.mk.inj (List.mem_singleton.mp hv)
      refine .test (.table _) fun x hx => ?_
      obtain rfl := List.mem_singleton.mp hx
      exact .args ["-q"]
  exact ⟨c, hc, hreflects c hc⟩

/-- What stands in a list behind the last setting of the tests does not matter. -/
theorem readTestSettings_append {surplus : List Value}
    (h : items.length = TestSettings.keys.length) :
    readTestSettings (.array (items ++ surplus)) = readTestSettings (.array items) := by
  have hzip : TestSettings.keys.zip (items ++ surplus) = TestSettings.keys.zip items := by
    have happend : (TestSettings.keys ++ []).zip (items ++ surplus) =
        TestSettings.keys.zip items ++ [].zip surplus := List.zip_append h.symm
    simpa using happend
  exact congrArg TestSettings.default.setAll hzip

/-- A project whose file gives the settings of the tests as a list with one item more. -/
def overfull : Tree :=
  Tree.placeAll [] [.file ⟨"/p/zipship.toml"⟩
    (Bytes.ofString "test = [['r'], ['a'], 'm', 'c', 'x']") 0o644] Tree.empty

/-- The table that its file denotes. -/
def isOverfull : Option Table → Bool
  | some [(key, .array [.array [.string r], .array [.string a], .string m, .string c,
      .string x])] => decide ((key, r, a, m, c, x) = ("test", "r", "a", "m", "c", "x"))
  | _ => false

set_option maxRecDepth 100000 in
theorem ofFile_drops_surplus :
    Toml.parse? "test = [['r'], ['a'], 'm', 'c', 'x']" = some [("test", .array
      [writeTexts ["r"], writeTexts ["a"], .string "m", .string "c", .string "x"])] ∧
    ofFile overfull [] ⟨"/p/zipship.toml"⟩ =
      .ok { default with test := ⟨["r"], ["a"], "m", ⟨"c"⟩⟩ } := by
  have hread : overfull.read [] ⟨"/p/zipship.toml"⟩ =
      .ok (Bytes.ofString "test = [['r'], ['a'], 'm', 'c', 'x']") := by decide +kernel
  have htext : (Bytes.ofString "test = [['r'], ['a'], 'm', 'c', 'x']").toString? =
      some "test = [['r'], ['a'], 'm', 'c', 'x']" := by decide +kernel
  have hparse : Toml.parse? "test = [['r'], ['a'], 'm', 'c', 'x']" = some [("test", .array
      [writeTexts ["r"], writeTexts ["a"], .string "m", .string "c", .string "x"])] := by
    have hshape : isOverfull (Toml.parse? "test = [['r'], ['a'], 'm', 'c', 'x']") = true := by
      decide +kernel
    unfold isOverfull at hshape
    split at hshape
    · rename_i hparse
      have heq := of_decide_eq_true hshape
      simp only [Prod.mk.injEq] at heq
      obtain ⟨rfl, rfl, rfl, rfl, rfl, rfl⟩ := heq
      exact hparse
    · cases hshape
  refine ⟨hparse, ?_⟩
  rw [ofFile_eq hread htext, ofText, hparse]
  simp only [ofTable, inKeyOrder, List.mergeSort_singleton]
  rfl

end Files

end Config

end Zipship
