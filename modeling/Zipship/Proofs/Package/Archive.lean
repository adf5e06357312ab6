import Zipship.Proofs.Package.Filling
import Zipship.Proofs.Package.Walk
import Zipship.Proofs.Path.Extension
import Zipship.Proofs.Tree.Agreement
import Zipship.Proofs.Zip.RoundTrip
import Zipship.Tree.Layout

/-!
# What an archive holds

`Kept` says of names that they lead from the source to something that neither is left out nor is in
a directory that is. When an archive is written, exactly those names have entries, each once, and
each entry is what its names lead to (`writeArchive_holds_kept`).

Creating the file of the archive comes before the walk. What the walk then finds is what was there
before, as long as no names that are kept lead to that file itself (`kept_created_iff`).
-/

namespace Zipship.Package

variable {t t' opened : Tree} {cwd place loc : Loc} {source dest exclude : Path}
  {names : List Name} {node : Node} {summary : Summary} {visits : List Visit}

/-- The names lead to something that an interpreter made. -/
inductive Compiled : List Name → Node → Prop
  | directory {above : List Name} : Compiled (above ++ (["__pycache__"] : List Name)) .dir
  | file {above : List Name} {stem extension : Bytes} {node : Node} (hnode : node ≠ .dir)
      (hstem : stem ≠ [])
      (hextension : extension ∈ ([".pyc", ".pyo"] : List Bytes)) :
      Compiled (above ++ [stem ++ extension]) node

/-- What stays out of an archive of `source`, by the names that lead to it. -/
inductive LeftOut (source dest exclude : Path) (names : List Name) (node : Node) : Prop
  /-- What an interpreter made. -/
  | compiled (h : Compiled names node)
  /-- The archive itself, as it is spelled. -/
  | archive (h : (source.descend names).components = dest.components)
  /-- What is in the excluded directory, as it is spelled. -/
  | excluded (h : exclude.components <+: (source.descend names).components)

/-- From the source the names lead to `node` at `loc`, links followed, and neither they nor any
beginning of them is left out. -/
structure Kept (t : Tree) (cwd : Loc) (source dest exclude : Path) (names : List Name) (loc : Loc)
    (node : Node) : Prop where
  ne_nil : names ≠ []
  valid : ∀ n ∈ names, n.valid = true
  leads : t.Leads cwd source names loc node
  free : ∀ q l m, q <+: names → q ≠ [] → t.Leads cwd source q l m →
    ¬ LeftOut source dest exclude q m

/-! ## The walk -/

theorem isBytecode_iff_compiled {above : List Name} {name : Name} :
    node.isBytecode name = true ↔ Compiled (above ++ [name]) node := by
  rw [Node.isBytecode_iff]
  constructor
  · rintro (⟨rfl, rfl⟩ | ⟨hnode, stem, extension, hstem, hextension, rfl⟩)
    · exact .directory
    · exact .file hnode hstem hextension
  · generalize hnames : above ++ [name] = names
    intro h
    cases h with
    | directory =>
      obtain ⟨rfl, rfl⟩ := by simpa using List.append_inj' hnames rfl
      exact Or.inl ⟨rfl, rfl⟩
    | @file above' stem extension node hnode hstem hextension =>
      obtain ⟨rfl, rfl⟩ := by simpa using List.append_inj' hnames rfl
      exact Or.inr ⟨hnode, stem, extension, hstem, hextension, rfl⟩

theorem isSkipped_iff (hne : names ≠ []) :
    isSkipped source dest exclude names node = true ↔ LeftOut source dest exclude names node := by
  obtain ⟨above, name, rfl⟩ : ∃ above name, names = above ++ [name] :=
    ⟨_, _, (List.dropLast_concat_getLast hne).symm⟩
  unfold isSkipped
  rw [List.getLast?_concat, Option.any_some, Bool.or_eq_true, Bool.or_eq_true]
  constructor
  · rintro ((h | h) | h)
    · exact .compiled (isBytecode_iff_compiled.mp h)
    · exact .archive (of_decide_eq_true h)
    · exact .excluded (List.isPrefixOf_iff_prefix.mp h)
  · rintro (h | h | h)
    · exact Or.inl (Or.inl (isBytecode_iff_compiled.mpr h))
    · exact Or.inl (Or.inr (decide_eq_true h))
    · exact Or.inr (List.isPrefixOf_iff_prefix.mpr h)

/-- What the walk for an archive has to list is what is kept. -/
theorem kept_iff_due : Kept t cwd source dest exclude names loc node ↔
    Walk.Due t cwd source (isSkipped source dest exclude) [] names loc node := by
  constructor
  · intro h
    refine ⟨List.nil_prefix, h.ne_nil.symm, h.valid, h.leads, fun q l m _ hne hq hl => ?_⟩
    exact Bool.eq_false_iff.mpr fun hskip => h.free q l m hq hne.symm hl
      ((isSkipped_iff hne.symm).mp hskip)
  · intro h
    refine ⟨h.ne.symm, h.valid, h.leads, fun q l m hq hne hl hleft => ?_⟩
    have hskip := h.free q l m List.nil_prefix hne.symm hq hl
    rw [(isSkipped_iff hne).mpr hleft] at hskip
    cases hskip

/-- **The walk for an archive**, when it comes to its end, lists what is kept. -/
theorem mem_archiveWalk {v : Visit} (hok : (archiveWalk t cwd source dest exclude).fault = none) :
    v ∈ (archiveWalk t cwd source dest exclude).visits ↔
      Kept t cwd source dest exclude v.names v.loc v.node :=
  (Walk.mem_ofSource hok).trans kept_iff_due.symm

theorem valid_of_mem_archiveWalk {v : Visit}
    (hv : v ∈ (archiveWalk t cwd source dest exclude).visits) : ∀ n ∈ v.names, n.valid = true :=
  (Walk.listed_of_mem_ofSource hv).valid (by simp)

/-- A walk that does not come to a place shows that nothing kept leads there. -/
theorem not_kept_of_walk (hok : (archiveWalk t cwd source dest exclude).fault = none)
    (hplace : ∀ v ∈ (archiveWalk t cwd source dest exclude).visits, v.loc ≠ place) :
    ∀ names node, ¬ Kept t cwd source dest exclude names place node := fun names node h =>
  hplace ⟨names, place, node⟩ ((mem_archiveWalk hok).mpr h) rfl

theorem archiveWalk_pairwise (t : Tree) (cwd : Loc) (source dest exclude : Path) :
    (archiveWalk t cwd source dest exclude).visits.Pairwise fun v w =>
      List.Lex (· < ·) v.names w.names :=
  Walk.ofSource_pairwise t cwd source _

/-! ## Creating the file comes first -/

/-- Whether something is left out depends on what it is only so far as it is a directory. -/
theorem LeftOut.congr {node' : Node} (h : LeftOut source dest exclude names node)
    (hdir : node' = .dir ↔ node = .dir) : LeftOut source dest exclude names node' := by
  rcases h with (_ | ⟨hnode, hstem, hextension⟩) | h | h
  · rw [hdir.mpr rfl]
    exact .compiled .directory
  · exact .compiled (.file (mt hdir.mp hnode) hstem hextension)
  · exact .archive h
  · exact .excluded h

/-- What is kept in one tree is kept in another one that differs only at one place, if something is
there when it is kept. -/
theorem Kept.transfer (h : Kept t cwd source dest exclude names loc node)
    (hagree : Tree.AgreeOff t t' place) (hloc : loc = place → (t'.get? place).isSome) :
    ∃ node', Kept t' cwd source dest exclude names loc node' ∧ (loc ≠ place → node' = node) := by
  obtain ⟨node', hleads, hnode, hdir⟩ := hagree.leads h.leads hloc
  refine ⟨node', ⟨h.ne_nil, h.valid, hleads, fun q l m hq hne hl hleft => ?_⟩, hnode⟩
  by_cases hlast : q = names
  · subst hlast
    obtain ⟨rfl, rfl⟩ := hl.unique hleads
    exact h.free q _ _ hq hne h.leads (hleft.congr hdir.symm)
  · obtain ⟨above, habove⟩ := h.leads.dir_of_isPrefix hq hlast h.valid
    have hget : t.get? above = some .dir := habove.get?_eq
    obtain ⟨m', hm', heq, -⟩ := hagree.leads habove fun he => absurd he (hagree.ne_of_isDir hget)
    obtain ⟨rfl, rfl⟩ := hl.unique hm'
    rw [heq (hagree.ne_of_isDir hget)] at hleft
    exact h.free q _ .dir hq hne habove hleft

/-- The steps of writing an archive. -/
theorem writeArchive_ok (h : (writeArchive cwd source dest exclude).exec t = (.ok summary, t')) :
    ∃ place opened, Tree.create cwd dest t = .ok (place, opened) ∧
      (archiveWalk opened cwd source dest exclude).fault = none ∧
      Takes place (archiveWalk opened cwd source dest exclude).visits ∧
      summary = summarize (archiveWalk opened cwd source dest exclude).visits ∧
      Tree.write place (draftOf place (archiveWalk opened cwd source dest exclude).visits).close
        opened = .ok (⟨⟩, t') := by
  unfold writeArchive at h
  obtain ⟨place, opened, hcreate, hlook⟩ := Edit.exec_bind_ok h
  obtain ⟨now, t₂, hget, hwalk⟩ := Edit.exec_bind_ok hlook
  obtain ⟨rfl, rfl⟩ := Edit.exec_get_ok hget
  obtain ⟨⟨⟩, t₃, hwrite, hend⟩ := Edit.exec_bind_ok hwalk
  have hcreated := Edit.exec_step_ok (Edit.exec_onError_ok hcreate)
  have hwritten := Edit.exec_step_ok (Edit.exec_onError_ok hwrite)
  cases hfailure : (fill source dest place (archiveWalk t₂ cwd source dest exclude).fault .empty
      (archiveWalk t₂ cwd source dest exclude).visits).2 with
  | some e =>
    simp only [hfailure] at hend
    cases hend
  | none =>
    simp only [hfailure] at hend
    obtain ⟨rfl, rfl⟩ := Edit.exec_pure_ok hend
    obtain ⟨htakes, hfault⟩ := fill_eq_none hfailure
    rw [fill_of_takes htakes] at hwritten
    exact ⟨place, t₂, hcreated, hfault, htakes, rfl, hwritten⟩

/-- Once the file is there and can be written, the filling of the archive alone decides what comes
of it. -/
theorem exec_writeArchive_created {written : Tree} {w : Walk} {filled : Bytes × Option Error}
    (hcreate : Tree.create cwd dest t = .ok (place, opened))
    (hwalk : archiveWalk opened cwd source dest exclude = w)
    (hfill : fill source dest place w.fault .empty w.visits = filled)
    (hwrite : Tree.write place filled.1 opened = .ok (⟨⟩, written)) :
    (writeArchive cwd source dest exclude).exec t =
      (match filled.2 with
        | some e => .error e
        | none => .ok (summarize w.visits),
      written) := by
  have hcreated : (Edit.onError (Edit.step (Tree.create cwd dest)) (Error.io dest)).exec t =
      (.ok place, opened) :=
    Edit.exec_onError_of_ok (Edit.exec_step_of_ok hcreate)
  have hwritten : (writeContent source dest place w filled.1).exec opened = (.ok ⟨⟩, written) :=
    Edit.exec_onError_of_ok (Edit.exec_step_of_ok hwrite)
  unfold writeArchive
  rw [Edit.exec_bind_of_ok hcreated, Edit.exec_bind_of_ok Edit.exec_get]
  simp only [hwalk, hfill]
  rw [Edit.exec_bind_of_ok hwritten]
  cases filled.2 <;> rfl

/-- **If the archive takes everything, the walk alone decides** what comes of it. -/
theorem exec_writeArchive_taken {written : Tree} {w : Walk}
    (hcreate : Tree.create cwd dest t = .ok (place, opened))
    (hwalk : archiveWalk opened cwd source dest exclude = w) (htakes : Takes place w.visits)
    (hwrite : Tree.write place (draftOf place w.visits).close opened = .ok (⟨⟩, written)) :
    (writeArchive cwd source dest exclude).exec t =
      (match w.fault with
        | some fault => .error (faultError source fault)
        | none => .ok (summarize w.visits),
      written) := by
  rw [exec_writeArchive_created hcreate hwalk (fill_of_takes htakes) hwrite]
  cases w.fault <;> rfl

/-- A walk that comes to its end is archived, if all that it lists can be. -/
theorem exists_writeArchive (hcreate : Tree.create cwd dest t = .ok (place, opened))
    (hplace : opened.get? place ≠ some (.device .full))
    (hwalk : archiveWalk opened cwd source dest exclude = ⟨visits, none⟩)
    (hself : ∀ v ∈ visits, v.loc ≠ place)
    (hnames : (visits.map fun v => (entryFor v.names v.node).name).Nodup)
    (hpackable : ∀ v ∈ visits, Packable v.node) :
    ∃ t', (writeArchive cwd source dest exclude).exec t = (.ok (summarize visits), t') ∧
      Tree.write place (Zip.encode (visits.map fun v => entryFor v.names v.node)) opened =
        .ok (⟨⟩, t') := by
  obtain ⟨t', hwrite⟩ := Tree.exists_write hplace (draftOf place visits).close
  refine ⟨t', ?_, draftOf_close hself ▸ hwrite⟩
  exact exec_writeArchive_taken hcreate hwalk ((takes_iff hself).mpr ⟨hnames, hpackable⟩) hwrite

/-- A walk that lists small files, of which the archive is none, is archived to a new file. -/
theorem writeArchive_of_small {mode : Nat}
    (hopened : (Tree.create cwd dest t).map (fun created => (created.1,
      created.2.get? created.1, archiveWalk created.2 cwd source dest exclude)) =
      .ok (place, some (.file [] mode), ⟨visits, none⟩))
    (hself : ∀ v ∈ visits, v.loc ≠ place)
    (hnames : (visits.map fun v => (entryFor v.names v.node).name).Nodup)
    (hsmall : ∀ v ∈ visits, v.node ≠ .device .full ∧ v.node.content.length ≤ 4290000000) :
    ∃ opened t', Tree.create cwd dest t = .ok (place, opened) ∧
      archiveWalk opened cwd source dest exclude = ⟨visits, none⟩ ∧
      (writeArchive cwd source dest exclude).exec t = (.ok (summarize visits), t') ∧
      t'.get? place =
        some (.file (Zip.encode (visits.map fun v => entryFor v.names v.node)) mode) := by
  obtain ⟨⟨place', opened⟩, hcreate, hcreated⟩ := map_eq_ok hopened
  obtain ⟨rfl, hrest⟩ := Prod.mk.inj hcreated
  obtain ⟨hfile, hwalk⟩ := Prod.mk.inj hrest
  obtain ⟨t', hrun, hwrite⟩ := exists_writeArchive hcreate (by rw [hfile]; simp) hwalk hself hnames
    fun v hv => .of_length_le (hsmall v hv).1 (hsmall v hv).2
  exact ⟨opened, t', hcreate, hwalk, hrun, (Tree.write_file hfile hwrite).1⟩

/-! ## The archive -/

section Created

variable (hcreate : Tree.create cwd dest t = .ok (place, opened))

include hcreate

/-- What is kept once the file of the archive is there was kept before, but for that file. -/
theorem kept_of_created (h : Kept opened cwd source dest exclude names loc node)
    (hne : loc ≠ place) : Kept t cwd source dest exclude names loc node := by
  obtain ⟨node', hkept, hnode⟩ :=
    h.transfer (Tree.agreeOff_create hcreate).symm fun he => absurd he hne
  rwa [hnode hne] at hkept

theorem kept_in_created (h : Kept t cwd source dest exclude names loc node) :
    ∃ node', Kept opened cwd source dest exclude names loc node' ∧ (loc ≠ place → node' = node) :=
  h.transfer (Tree.agreeOff_create hcreate) fun _ => Tree.isSome_create hcreate

/-- Creating the archive changes nothing that is kept, if the archive itself is not. -/
theorem kept_created_iff
    (hself : ∀ names node, ¬ Kept opened cwd source dest exclude names place node) :
    Kept t cwd source dest exclude names loc node ↔
      Kept opened cwd source dest exclude names loc node := by
  constructor
  · intro h
    obtain ⟨node', hkept, hnode⟩ := kept_in_created hcreate h
    have hne : loc ≠ place := fun he => hself names node' (he ▸ hkept)
    rwa [hnode hne] at hkept
  · exact fun h => kept_of_created hcreate h fun he => hself names node (he ▸ h)

end Created

/-- What a walk lists has entries whose archive is read as them, if it is not too large for a reader
of the first version of the format. -/
theorem read?_encode_entries (hok : (archiveWalk t cwd source dest exclude).fault = none)
    (hcount : (archiveWalk t cwd source dest exclude).visits.length ≤ Zip.maxCount)
    (hsize : (Zip.encode ((archiveWalk t cwd source dest exclude).visits.map fun v =>
      entryFor v.names v.node)).length ≤ Zip.maxSize) :
    Zip.read? (Zip.encode ((archiveWalk t cwd source dest exclude).visits.map fun v =>
        entryFor v.names v.node)).toArray =
      some (((archiveWalk t cwd source dest exclude).visits.map fun v =>
        entryFor v.names v.node).map .ofEntry) := by
  refine Zip.read?_encode (by rwa [List.length_map]) (fun e he => ?_) hsize
  obtain ⟨v, hv, rfl⟩ := List.mem_map.mp he
  obtain ⟨-, -, hpath⟩ := Tree.checkPath_eq_ok.mp (Walk.checkPath_of_mem_ofSource hok hv)
  refine Nat.lt_of_le_of_lt (utf8ByteSize_entryFor_le source (valid_of_mem_archiveWalk hv)) ?_
  unfold Tree.maxPathBytes at hpath
  omega

/-- **An archive holds what is kept**, each once and as it is, when the file of the archive itself
is not, and that is what is read of it. Nothing but that file is changed. -/
theorem writeArchive_holds_kept (hcreate : Tree.create cwd dest t = .ok (place, opened))
    (hself : ∀ names node, ¬ Kept opened cwd source dest exclude names place node)
    (h : (writeArchive cwd source dest exclude).exec t = (.ok summary, t')) :
    (∀ l, l ≠ place → t'.get? l = t.get? l) ∧
      ∃ (archived : List (List Name)) (entries : List Zip.Entry),
        ((∃ mode, t'.get? place = some (.file (Zip.encode entries) mode)) ∨
          t'.get? place = some (.device .null)) ∧
        archived.Pairwise (List.Lex (· < ·)) ∧
        (∀ names, names ∈ archived ↔ ∃ loc node, Kept t cwd source dest exclude names loc node) ∧
        List.Forall₂ (fun names entry => ∃ loc node,
          Kept t cwd source dest exclude names loc node ∧ Describes entry names node)
          archived entries ∧
        (entries.length ≤ Zip.maxCount → (Zip.encode entries).length ≤ Zip.maxSize →
          Zip.read? (Zip.encode entries).toArray = some (entries.map .ofEntry)) ∧
        summary.entries = entries.length ∧
        (summary.hasEntryPoint = true ↔
          ∃ loc node, Kept t cwd source dest exclude ["__main__.py"] loc node ∧ node ≠ .dir) := by
  obtain ⟨place', opened', hcreate', hok, -, rfl, hwrite⟩ := writeArchive_ok h
  rw [hcreate] at hcreate'
  cases hcreate'
  have hmem (v : Visit) : v ∈ (archiveWalk opened cwd source dest exclude).visits ↔
      Kept t cwd source dest exclude v.names v.loc v.node :=
    (mem_archiveWalk hok).trans (kept_created_iff hcreate hself).symm
  have hplace : ∀ v ∈ (archiveWalk opened cwd source dest exclude).visits, v.loc ≠ place := by
    intro v hv he
    exact hself v.names v.node (he ▸ (mem_archiveWalk hok).mp hv)
  rw [draftOf_close hplace] at hwrite
  obtain ⟨hframe, hfile⟩ := Tree.create_write_ok hcreate (encode_ne_nil _) hwrite
  refine ⟨hframe, _, _, hfile,
    List.pairwise_map.mpr (archiveWalk_pairwise opened cwd source dest exclude),
    fun names => ?_, ?_, fun hcount hsize => ?_, ?_, ?_⟩
  · rw [List.mem_map]
    constructor
    · rintro ⟨v, hv, rfl⟩
      exact ⟨v.loc, v.node, (hmem v).mp hv⟩
    · rintro ⟨loc, node, hkept⟩
      exact ⟨⟨names, loc, node⟩, (hmem _).mpr hkept, rfl⟩
  · rw [List.forall₂_map_left_iff, List.forall₂_map_right_iff, List.forall₂_same]
    intro v hv
    have hkept := (hmem v).mp hv
    exact ⟨v.loc, v.node, hkept, describes_entryFor hkept.ne_nil hkept.valid⟩
  · exact read?_encode_entries hok (by rwa [List.length_map] at hcount) hsize
  · rw [List.length_map]
    rfl
  · unfold summarize
    simp only [List.any_eq_true, Bool.and_eq_true, decide_eq_true_eq]
    constructor
    · rintro ⟨v, hv, hnames, hnode⟩
      have hkept := (hmem v).mp hv
      rw [(joinNames_eq_entryPoint_iff hkept.valid).mp hnames] at hkept
      exact ⟨v.loc, v.node, hkept, hnode⟩
    · rintro ⟨loc, node, hkept, hnode⟩
      exact ⟨⟨_, loc, node⟩, (hmem _).mpr hkept,
        (joinNames_eq_entryPoint_iff hkept.valid).mpr rfl, hnode⟩

/-- Sources with an entry point, with a compiled file, and with a link. -/
def sources : Tree :=
  Tree.placeAll [] [.file ⟨"/p/src/__main__.py"⟩ [1] 0o755, .file ⟨"/p/src/a/b.pyc"⟩ [2] 0o644,
    .file ⟨"/p/src/a/.pyc"⟩ [3] 0o600, .link ⟨"/p/src/c"⟩ ⟨"a"⟩] Tree.empty

set_option maxRecDepth 100000 in
theorem writeArchive_holds_kept_sources :
    ∃ opened summary t', Tree.create [] ⟨"/p/out.zip"⟩ sources = .ok (["p", "out.zip"], opened) ∧
      (∀ names node, ¬ Kept opened [] ⟨"/p/src"⟩ ⟨"/p/out.zip"⟩ ⟨"/p/target"⟩ names
        ["p", "out.zip"] node) ∧
      (writeArchive [] ⟨"/p/src"⟩ ⟨"/p/out.zip"⟩ ⟨"/p/target"⟩).exec sources = (.ok summary, t') ∧
      (summary.hasEntryPoint = true ↔ ∃ loc node,
        Kept sources [] ⟨"/p/src"⟩ ⟨"/p/out.zip"⟩ ⟨"/p/target"⟩ ["__main__.py"] loc node ∧
          node ≠ .dir) := by
  let visits : List Visit :=
    [⟨["__main__.py"], ["p", "src", "__main__.py"], .file [1] 0o755⟩,
      ⟨["a"], ["p", "src", "a"], .dir⟩,
      ⟨["a", ".pyc"], ["p", "src", "a", ".pyc"], .file [3] 0o600⟩, ⟨["c"], ["p", "src", "a"], .dir⟩,
      ⟨["c", ".pyc"], ["p", "src", "a", ".pyc"], .file [3] 0o600⟩]
  have hopened : (Tree.create [] ⟨"/p/out.zip"⟩ sources).map (fun created => (created.1,
      created.2.get? created.1,
      archiveWalk created.2 [] ⟨"/p/src"⟩ ⟨"/p/out.zip"⟩ ⟨"/p/target"⟩)) =
      .ok (["p", "out.zip"], some (.file [] 0o644), ⟨visits, none⟩) := by
    decide +kernel
  have hself : ∀ v ∈ visits, v.loc ≠ (["p", "out.zip"] : Loc) := by decide +kernel
  obtain ⟨opened, t', hcreate, hwalk, hrun, -⟩ :=
    writeArchive_of_small hopened hself (by decide +kernel) (by decide +kernel)
  have hkept := not_kept_of_walk (congrArg Walk.fault hwalk) (by rw [hwalk]; exact hself)
  obtain ⟨-, -, -, -, -, -, -, -, -, hentry⟩ := writeArchive_holds_kept hcreate hkept hrun
  exact ⟨opened, _, t', hcreate, hkept, hrun, hentry⟩

/-- Sources with a directory whose name ends in a backslash, and with a module whose name is no
text. -/
def oddlyNamed : Tree :=
  Tree.placeAll [] [.dir ⟨"/s/x\\"⟩, .file (.child ⟨"/s"⟩ (0xff :: ".py")) [49] 0o644] Tree.empty

set_option maxRecDepth 100000 in
/-- **The name of an entry is not always the names that lead to it**, with slashes between them and
one behind a directory's: no slash is added behind a backslash, and a name that is no text is
replaced by what is shown of it. -/
theorem odd_names_are_changed :
    ∃ opened t', Tree.create [] ⟨"/o.zip"⟩ oddlyNamed = .ok (["o.zip"], opened) ∧
      (∀ names node, ¬ Kept opened [] ⟨"/s"⟩ ⟨"/o.zip"⟩ ⟨"/none"⟩ names ["o.zip"] node) ∧
      (writeArchive [] ⟨"/s"⟩ ⟨"/o.zip"⟩ ⟨"/none"⟩).exec oddlyNamed = (.ok ⟨2, false⟩, t') ∧
      Kept oddlyNamed [] ⟨"/s"⟩ ⟨"/o.zip"⟩ ⟨"/none"⟩ ["x\\"] ["s", "x\\"] .dir ∧
      Kept oddlyNamed [] ⟨"/s"⟩ ⟨"/o.zip"⟩ ⟨"/none"⟩ [0xff :: ".py"] ["s", 0xff :: ".py"]
        (.file [49] 0o644) ∧
      t'.get? ["o.zip"] = some (.file
        (Zip.encode [⟨"x\\", .directory⟩, ⟨"\uFFFD.py", .file [49] false⟩]) 0o644) := by
  let visits : List Visit :=
    [⟨["x\\"], ["s", "x\\"], .dir⟩, ⟨[0xff :: ".py"], ["s", 0xff :: ".py"], .file [49] 0o644⟩]
  have hopened : (Tree.create [] ⟨"/o.zip"⟩ oddlyNamed).map (fun created => (created.1,
      created.2.get? created.1, archiveWalk created.2 [] ⟨"/s"⟩ ⟨"/o.zip"⟩ ⟨"/none"⟩)) =
      .ok (["o.zip"], some (.file [] 0o644), ⟨visits, none⟩) := by
    decide +kernel
  have hself : ∀ v ∈ visits, v.loc ≠ (["o.zip"] : Loc) := by decide +kernel
  obtain ⟨opened, t', hcreate, hwalk, hrun, hzip⟩ :=
    writeArchive_of_small hopened hself (by decide +kernel) (by decide +kernel)
  have hkept := not_kept_of_walk (congrArg Walk.fault hwalk) (by rw [hwalk]; exact hself)
  have hsummary : summarize visits = ⟨2, false⟩ := by decide +kernel
  have hentries : visits.map (fun v => entryFor v.names v.node) =
      [⟨"x\\", .directory⟩, ⟨"\uFFFD.py", .file [49] false⟩] := by decide +kernel
  rw [hsummary] at hrun
  rw [hentries] at hzip
  have hbefore (v : Visit) (hv : v ∈ visits) : Kept oddlyNamed [] ⟨"/s"⟩ ⟨"/o.zip"⟩ ⟨"/none"⟩
      v.names v.loc v.node := by
    refine (kept_created_iff hcreate hkept).mpr ((mem_archiveWalk ?_).mp ?_)
    · rw [hwalk]
    · rw [hwalk]
      exact hv
  exact ⟨opened, t', hcreate, hkept, hrun, hbefore _ List.mem_cons_self,
    hbefore ⟨[0xff :: ".py"], ["s", 0xff :: ".py"], .file [49] 0o644⟩ (by simp [visits]), hzip⟩

end Zipship.Package
