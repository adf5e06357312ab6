import Zipship.Proofs.Config.Schema
import Zipship.Proofs.Text.Encoding
import Zipship.Proofs.Toml.Documents
import Zipship.Tree.Layout

/-!
# Which layer decides

The interpreter, the name and the source directory are each `Chosen` on their own: from what the
caller gives, even if that is empty, else from the environment if there is something to see in its
variable, else from the file if that says it, else it is the default. How the tests are run is said
by the file alone, and the root by nobody: it is the project directory in its canonical spelling.
Loading gives exactly this, and succeeds unless the directory cannot be reached, the file cannot be
read as a configuration, or the outcome is not valid (`load_layers`).

Only the outcome is checked. So what a layer says about a setting that a higher one supplies does
not matter, whatever it is (`Masked`).
-/

namespace Zipship.Config

open Toml (Value Table)

variable {t t' : Tree} {cwd root : Loc} {env env' : Environment} {dir file path : Path}
  {given : Overrides} {table : Table} {base base' c : Config}

/-! ## The file -/

/-- What the file of a project says: its table, or nothing if there is no file. -/
inductive Filed (t : Tree) (cwd : Loc) (file : Path) : Table → Prop
  | absent (h : ∀ node, t.stat cwd file ≠ .ok node) : Filed t cwd file []
  | present {content : Bytes} {text : String} {table : Table}
      (hread : t.read cwd file = .ok content)
      (htext : content.toString? = some text) (hparse : Toml.parse? text = some table) :
      Filed t cwd file table

theorem Filed.distinct (h : Filed t cwd file table) : (Value.table table).Distinct := by
  cases h with
  | absent => exact .table List.nodup_nil (by simp)
  | present _ _ hparse => exact Toml.parse?_distinct hparse

/-- A file says one thing at most. -/
theorem Filed.unique {table' : Table} (h : Filed t cwd file table)
    (h' : Filed t cwd file table') : table = table' := by
  have hfound {content : Bytes} (hread : t.read cwd file = .ok content) :
      ∃ node, t.stat cwd file = .ok node := by
    obtain ⟨node, hstat, -⟩ := bind_eq_ok.mp hread
    exact ⟨node, hstat⟩
  cases h with
  | absent hnone =>
    cases h' with
    | absent => rfl
    | present hread => exact (hfound hread).elim fun node hstat => absurd hstat (hnone node)
  | present hread htext hparse =>
    cases h' with
    | absent hnone => exact (hfound hread).elim fun node hstat => absurd hstat (hnone node)
    | present hread' htext' hparse' =>
      cases hread.symm.trans hread'
      cases htext.symm.trans htext'
      exact Option.some.inj (hparse.symm.trans hparse')

/-- The table of a document that is written in the file is what the file says. -/
theorem filed_document (marked : Bool) {top : Table} {sections : List (String × Table)}
    (h : Toml.Sayable top sections)
    (hread : t.read cwd file = .ok (Toml.document marked top sections)) :
    Filed t cwd file table ↔ table = top ++ sections.map fun s => (s.1, .table s.2) := by
  have hfiled : Filed t cwd file (top ++ sections.map fun s => (s.1, .table s.2)) :=
    .present hread (Bytes.toString?_ofString _) (Toml.parse?_document marked h)
  exact ⟨fun h => h.unique hfiled, fun h => h ▸ hfiled⟩

theorem exists?_eq_false_iff :
    t.exists? cwd file = false ↔ ∀ node, t.stat cwd file ≠ .ok node := by
  unfold Tree.exists?
  cases t.stat cwd file <;> simp [Except.isOk, Except.toBool]

/-- The configuration in a file is what the file says, if each entry of that is admitted. -/
theorem ofFile_ok_iff : ofFile t cwd file = .ok base ↔ ∃ table, Filed t cwd file table ∧
    (∀ key v, (key, v) ∈ table → Admitted key v) ∧ base.Reflects table := by
  constructor
  · intro h
    by_cases hexists : t.exists? cwd file = true
    · have hof := h
      unfold ofFile at h
      rw [if_pos hexists] at h
      obtain ⟨content, hread, h⟩ := bind_eq_ok.mp h
      have hread := mapError_eq_ok hread
      split at h
      · cases h
      · rename_i text htext
        unfold ofText at h
        split at h
        · cases h
        · rename_i table hparse
          exact ⟨table, .present hread htext hparse,
            (ofTable_ok_iff (Toml.parse?_distinct hparse)).mp (mapError_eq_ok h)⟩
    · unfold ofFile at h
      rw [if_neg hexists] at h
      cases h
      exact ⟨[], .absent (exists?_eq_false_iff.mp (Bool.eq_false_iff.mpr hexists)), by simp,
        reflects_nil⟩
  · rintro ⟨table, hfiled, hadmitted, hreflects⟩
    cases hfiled with
    | absent h =>
      unfold ofFile
      rw [exists?_eq_false_iff.mpr h, if_neg (by decide), hreflects.unique reflects_nil]
    | present hread htext hparse =>
      have hof := (ofTable_ok_iff (Toml.parse?_distinct hparse)).mpr ⟨hadmitted, hreflects⟩
      rw [ofFile_eq hread htext, ofText, hparse]
      dsimp only
      rw [hof]
      rfl

/-! ## Each setting -/

section Setting

variable {α : Type} {override : Option α} {key : Bytes} {read : String → α} {Said Said' : α → Prop}
  {low x : α}

/-- Which value a setting takes: the one that is given, else the one in the environment if that is a
text with something to see in it, else one that is said below. -/
inductive Chosen (override : Option α) (inEnvironment : Option Bytes) (read : String → α)
    (Said : α → Prop) : α → Prop
  | given {x : α} (h : override = some x) : Chosen override inEnvironment read Said x
  | environment {s : String} (hnone : override = none) (hset : inEnvironment = some s)
      (hvisible : Text.blank s = false) : Chosen override inEnvironment read Said (read s)
  | below {x : α} (hnone : override = none)
      (hunset : ∀ s : String, inEnvironment = some (s : Bytes) → Text.blank s = true)
      (h : Said x) : Chosen override inEnvironment read Said x

theorem Chosen.mono (h : Chosen override (env.get? key) read Said x)
    (hsaid : ∀ x, Said x → Said' x) : Chosen override (env.get? key) read Said' x := by
  cases h with
  | given h => exact .given h
  | environment hnone hset hvisible => exact .environment hnone hset hvisible
  | below hnone hunset h => exact .below hnone hunset (hsaid x h)

/-- A variable has a visible value just if it holds a text in which there is something to see. -/
theorem getVisible?_eq_some_iff {s : String} : env.getVisible? key = some s ↔
    env.get? key = some (s : Bytes) ∧ Text.blank s = false := by
  unfold Environment.getVisible?
  rw [Option.filter_eq_some_iff, Option.bind_eq_some_iff]
  simp only [Bytes.toString?_eq_some_iff, Bool.not_eq_true']
  constructor
  · rintro ⟨⟨b, hget, rfl⟩, hvisible⟩
    exact ⟨hget, hvisible⟩
  · rintro ⟨hget, hvisible⟩
    exact ⟨⟨_, hget, rfl⟩, hvisible⟩

/-- Over one value below, the layers have one outcome. -/
theorem chosen_iff : Chosen override (env.get? key) read (· = low) x ↔
    x = override.getD (((env.getVisible? key).map read).getD low) := by
  constructor
  · intro h
    cases h with
    | given h => simp [h]
    | environment hnone hset hvisible =>
      simp [hnone, getVisible?_eq_some_iff.mpr ⟨hset, hvisible⟩]
    | below hnone hunset h =>
      have hfilter : env.getVisible? key = none := by
        refine Option.eq_none_iff_forall_ne_some.mpr fun s hs => ?_
        obtain ⟨hset, hvisible⟩ := getVisible?_eq_some_iff.mp hs
        rw [hunset s hset] at hvisible
        cases hvisible
      rw [hnone, hfilter, h]
      rfl
  · rintro rfl
    cases override with
    | some x => exact .given rfl
    | none =>
      cases hget : env.getVisible? key with
      | none =>
        refine .below rfl (fun s hs => ?_) rfl
        by_contra hvisible
        have hsome := getVisible?_eq_some_iff.mpr ⟨hs, Bool.eq_false_iff.mpr hvisible⟩
        rw [hget] at hsome
        cases hsome
      | some s =>
        obtain ⟨hset, hvisible⟩ := getVisible?_eq_some_iff.mp hget
        exact .environment rfl hset hvisible

end Setting

/-! ## All settings -/

/-- The configuration is put together from its layers, one setting at a time. -/
structure Layered (given : Overrides) (env : Environment) (table : Table) (c : Config) : Prop where
  python : Chosen given.python (env.get? "ZIPSHIP_PYTHON") id
    (Reads table "python" SaysText default.python) c.python
  name : Chosen given.name (env.get? "ZIPSHIP_NAME") id
    (Reads table "name" SaysText default.name) c.name
  src : Chosen given.src (env.get? "ZIPSHIP_SRC") (fun s => ⟨s⟩)
    (Reads table "src" SaysPath default.src) c.src
  test : ReadsTests table c.test

/-- What the layers say is what putting them over each other gives. -/
theorem layered_iff (h : base.Reflects table) : Layered given env table c ↔
    c = given.apply (env.overrides.apply { base with root := c.root }) := by
  have hpython (x : String) : Reads table "python" SaysText default.python x ↔ x = base.python :=
    ⟨fun hx => hx.unique saysText_functional h.python, fun hx => hx ▸ h.python⟩
  have hname (x : String) : Reads table "name" SaysText default.name x ↔ x = base.name :=
    ⟨fun hx => hx.unique saysText_functional h.name, fun hx => hx ▸ h.name⟩
  have hsrc (x : Path) : Reads table "src" SaysPath default.src x ↔ x = base.src :=
    ⟨fun hx => hx.unique saysPath_functional h.src, fun hx => hx ▸ h.src⟩
  constructor
  · rintro ⟨cpython, cname, csrc, ctest⟩
    have hp := chosen_iff.mp (cpython.mono fun x => (hpython x).mp)
    have hn := chosen_iff.mp (cname.mono fun x => (hname x).mp)
    have hs := chosen_iff.mp (csrc.mono fun x => (hsrc x).mp)
    simp only [Option.map_id_fun, id_eq] at hp hn
    obtain ⟨root, python, name, src, test⟩ := c
    obtain rfl : test = base.test := ctest.unique h.test
    obtain rfl := hp
    obtain rfl := hn
    obtain rfl := hs
    simp only [Overrides.apply, Environment.overrides]
  · intro hc
    have hfields :
        c.python = given.python.getD ((env.getVisible? "ZIPSHIP_PYTHON").getD base.python) ∧
        c.name = given.name.getD ((env.getVisible? "ZIPSHIP_NAME").getD base.name) ∧
        c.src = given.src.getD (((env.getVisible? "ZIPSHIP_SRC").map fun s => ⟨s⟩).getD base.src) ∧
        c.test = base.test := by
      rw [hc]
      exact ⟨rfl, rfl, rfl, rfl⟩
    obtain ⟨hp, hn, hs, htest⟩ := hfields
    refine ⟨?_, ?_, ?_, htest ▸ h.test⟩
    · exact (chosen_iff.mpr (by rw [hp, Option.map_id_fun, id])).mono fun x => (hpython x).mpr
    · exact (chosen_iff.mpr (by rw [hn, Option.map_id_fun, id])).mono fun x => (hname x).mpr
    · exact (chosen_iff.mpr hs).mono fun x => (hsrc x).mpr

/-- Loading puts the layers over each other and checks the outcome. -/
theorem load_eq (hroot : t.canonicalize cwd dir = .ok (root, path))
    (hbase : ofFile t cwd (path.child fileName) = .ok base) :
    load t cwd env dir given =
      match (given.apply (env.overrides.apply { base with root := path })).fault? with
      | some fault => .error (.invalid fault)
      | none => .ok (given.apply (env.overrides.apply { base with root := path })) := by
  unfold load
  rw [hroot]
  show (ofFile t cwd (path.child fileName) >>= _) = _
  rw [hbase]
  rfl

theorem load_eq_ok_iff : load t cwd env dir given = .ok c ↔
    ∃ root base, t.canonicalize cwd dir = .ok (root, c.root) ∧
      ofFile t cwd (c.root.child fileName) = .ok base ∧
      c = given.apply (env.overrides.apply { base with root := c.root }) ∧ c.Valid := by
  constructor
  · intro h
    obtain ⟨⟨root, path⟩, hroot, h⟩ := bind_eq_ok.mp h
    obtain ⟨base, hbase, h⟩ := bind_eq_ok.mp h
    dsimp only at hbase h
    split at h
    · cases h
    · rename_i hvalid
      cases h
      exact ⟨root, base, mapError_eq_ok hroot, hbase, rfl, hvalid⟩
  · rintro ⟨root, base, hroot, hbase, hc, hvalid⟩
    rw [load_eq hroot hbase, ← hc, hvalid]

/-! ## What does not matter -/

/-- What the layers below say about a setting differs at most where it is supplied above: what the
caller gives hides the environment and the file, and what is seen in the environment hides the file.
-/
def Supplied {α β : Type} (override : Option β) (seen seen' : Option α) (low low' : β) : Prop :=
  override = none → seen = seen' ∧ (seen = none → low = low')

theorem Supplied.getD_eq {α β : Type} {override : Option β} {seen seen' : Option α} {low low' : β}
    (h : Supplied override seen seen' low low') (read : α → β) :
    override.getD ((seen.map read).getD low) = override.getD ((seen'.map read).getD low') := by
  cases override with
  | some x => rfl
  | none =>
    obtain ⟨rfl, hlow⟩ := h rfl
    cases seen with
    | some s => rfl
    | none => exact hlow rfl

/-- The layers below what the caller gives differ at most where a setting is supplied above. -/
structure Masked (given : Overrides) (env env' : Environment) (base base' : Config) : Prop where
  python : Supplied given.python (env.getVisible? "ZIPSHIP_PYTHON")
    (env'.getVisible? "ZIPSHIP_PYTHON") base.python base'.python
  name : Supplied given.name (env.getVisible? "ZIPSHIP_NAME") (env'.getVisible? "ZIPSHIP_NAME")
    base.name base'.name
  src : Supplied given.src (env.getVisible? "ZIPSHIP_SRC") (env'.getVisible? "ZIPSHIP_SRC")
    base.src base'.src
  test : base.test = base'.test

theorem Masked.apply_eq (h : Masked given env env' base base') (path : Path) :
    given.apply (env.overrides.apply { base with root := path }) =
      given.apply (env'.overrides.apply { base' with root := path }) := by
  have hpython := h.python.getD_eq id
  have hname := h.name.getD_eq id
  have hsrc := h.src.getD_eq fun s => (⟨s⟩ : Path)
  simp only [Option.map_id_fun, id_eq] at hpython hname
  simp only [Overrides.apply, Environment.overrides, hpython, hname, hsrc, h.test]

/-- **Each setting comes from the highest layer that has it.** Loading gives a configuration exactly
if the directory has a canonical spelling, which is the root; the file, if there is one, can be read
and holds a table whose entries are all admitted; the configuration is put together from what is
given, the environment and that table, one setting at a time; and it is valid. A file in which a
document of texts is written says just what the document does. What a layer says about a setting
that is supplied above it does not matter. -/
theorem load_layers (t : Tree) (cwd : Loc) (env : Environment) (dir : Path) (given : Overrides) :
    (∀ c, load t cwd env dir given = .ok c ↔
      ∃ root table, t.canonicalize cwd dir = .ok (root, c.root) ∧
        Filed t cwd (c.root.child fileName) table ∧
        (∀ key v, (key, v) ∈ table → Admitted key v) ∧ Layered given env table c ∧ c.Valid) ∧
    (∀ file marked top sections, Toml.Sayable top sections →
      t.read cwd file = .ok (Toml.document marked top sections) → ∀ table,
        Filed t cwd file table ↔ table = top ++ sections.map fun s => (s.1, .table s.2)) ∧
    ∀ t' env' base base' root path, t.canonicalize cwd dir = .ok (root, path) →
      t'.canonicalize cwd dir = .ok (root, path) →
      ofFile t cwd (path.child fileName) = .ok base →
      ofFile t' cwd (path.child fileName) = .ok base' → Masked given env env' base base' →
      load t cwd env dir given = load t' cwd env' dir given := by
  refine ⟨fun c => ?_, fun file marked top sections h hread table => filed_document marked h hread,
    ?_⟩
  · rw [load_eq_ok_iff]
    constructor
    · rintro ⟨root, base, hroot, hbase, hc, hvalid⟩
      obtain ⟨table, hfiled, hadmitted, hreflects⟩ := ofFile_ok_iff.mp hbase
      exact ⟨root, table, hroot, hfiled, hadmitted, (layered_iff hreflects).mpr hc, hvalid⟩
    · rintro ⟨root, table, hroot, hfiled, hadmitted, hlayered, hvalid⟩
      obtain ⟨base, hbase⟩ : ∃ base, ofTable table = .ok base :=
        (ofTable_isOk_iff hfiled.distinct).mpr hadmitted
      have hreflects := ofTable_reflects hfiled.distinct hbase
      exact ⟨root, base, hroot, ofFile_ok_iff.mpr ⟨table, hfiled, hadmitted, hreflects⟩,
        (layered_iff hreflects).mp hlayered, hvalid⟩
  · intro t' env' base base' root path hroot hroot' hbase hbase' hmasked
    rw [load_eq hroot hbase, load_eq hroot' hbase', hmasked.apply_eq]

/-- A project whose file is a link that leads nowhere but to itself. -/
def looped : Tree :=
  Tree.placeAll [] [.dir ⟨"/p"⟩, .link ⟨"/p/zipship.toml"⟩ ⟨"zipship.toml"⟩] Tree.empty

set_option maxRecDepth 100000 in
/-- **What cannot be read as a layer is no layer.** A variable that is set to something to see is
ignored if it is no text, and a file is if its path cannot be looked up. -/
theorem unreadable_layers_are_ignored :
    looped.get? ["p", "zipship.toml"] = some (.link ⟨"zipship.toml"⟩) ∧
      looped.read [] ⟨"/p/zipship.toml"⟩ = .error .tooManyLinks ∧
      load looped [] [("ZIPSHIP_NAME", [0xff])] ⟨"/p"⟩ .none = .ok (withRoot ⟨"/p"⟩) := by
  refine ⟨?_, ?_, ?_⟩ <;> decide +kernel

end Zipship.Config
