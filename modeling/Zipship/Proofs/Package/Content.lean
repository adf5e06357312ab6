import Mathlib.Data.List.Sort
import Zipship.Proofs.Digest.Sha256
import Zipship.Proofs.Package.Output

/-!
# What an artifact depends on

An archive tells of its sources only the names, what is a directory, the content of the rest, and
whether somebody may run it (`Appearance`). It lists them in the order of the names, whatever the
order of the directories. So two projects that show the same are packaged to the same artifact,
wherever they are, however their sources are spelled and linked, and whatever else lies around
(`artifact_eq_of_shows`).

What lies in the target directory is no exception, but for one thing. A link that was left at the
name of the archive chooses the file that the archive is written to. As long as that is a regular
file of its own nothing is lost (`Unhindered`), and without such a link it is
(`unhindered_of_plain`). If it is one of the sources, it is emptied before the sources are read
(`stray_link_changes_artifact`).
-/

namespace Zipship.Package

variable {t t' t₁ t₁' t₂ t₂' opened made archived joined marked : Tree}
  {cwd cwd₁ cwd₂ place loc : Loc} {c c₁ c₂ : Config} {report report₁ report₂ : Report}
  {names : List Name} {node : Node} {summary : Summary} {p archive artifact : Path}
  {line : String} {content : Bytes} {mode : Nat} {pos : Tree.Position} {visits : List Visit}

/-! ## How sources look -/

/-- How something looks to whoever packages it. -/
structure Appearance where
  isDir : Bool
  content : Bytes
  /-- Somebody may run it. -/
  isExecutable : Bool
  deriving DecidableEq, Repr

/-- How a node looks. -/
def Appearance.of (node : Node) : Appearance := ⟨node = .dir, node.content, node.isExecutable⟩

/-- The entry for what has some looks. -/
def Appearance.entry (names : List Name) (a : Appearance) : Zip.Entry :=
  if a.isDir then ⟨Zip.directoryName (entryNames names), .directory⟩
  else ⟨Zip.joinNames (entryNames names), .file a.content a.isExecutable⟩

/-- An entry depends on nothing but the looks. -/
theorem entryFor_eq : entryFor names node = (Appearance.of node).entry names := by
  cases node <;> rfl

/-- What a visit shows. -/
def Visit.shown (v : Visit) : List Name × Appearance := (v.names, .of v.node)

/-- The tree that a project is packaged in: the target directory is there. -/
def prepared (t : Tree) (cwd : Loc) (c : Config) : Tree :=
  ((Tree.makeDirAll cwd c.targetDir).exec t).2

/-- What the sources of a project show under some names, links followed, when the target directory
is there. What an interpreter made and what is in the target directory is not shown. -/
def Shows (t : Tree) (cwd : Loc) (c : Config) (names : List Name) (a : Appearance) : Prop :=
  ∃ loc node, Kept (prepared t cwd c) cwd c.sourceDir c.archivePath c.targetDir names loc node ∧
    Appearance.of node = a

/-- A walk that comes to its end lists what is shown. -/
theorem mem_shown {source dest exclude : Path} {a : Appearance}
    (hok : (archiveWalk t cwd source dest exclude).fault = none) :
    (names, a) ∈ (archiveWalk t cwd source dest exclude).visits.map Visit.shown ↔
      ∃ loc node, Kept t cwd source dest exclude names loc node ∧ Appearance.of node = a := by
  rw [List.mem_map]
  constructor
  · rintro ⟨v, hv, hshown⟩
    obtain ⟨rfl, rfl⟩ := Prod.mk.inj hshown
    exact ⟨v.loc, v.node, (mem_archiveWalk hok).mp hv, rfl⟩
  · rintro ⟨loc, node, hkept, rfl⟩
    exact ⟨⟨names, loc, node⟩, (mem_archiveWalk hok).mpr hkept, rfl⟩

/-- A summary counts what is shown. -/
theorem summarize_eq : summarize visits = ⟨(visits.map Visit.shown).length,
    (visits.map Visit.shown).any fun s =>
      Zip.joinNames (entryNames s.1) = entryPoint && !s.2.isDir⟩ := by
  simp only [summarize, List.length_map, List.any_map, Function.comp_def, Visit.shown,
    Appearance.of, ne_eq, decide_not]
  rfl

/-- What is shown can be read off the walk. -/
theorem shows_iff_mem {a : Appearance}
    (hwalk : archiveWalk (prepared t cwd c) cwd c.sourceDir c.archivePath c.targetDir =
      ⟨visits, none⟩) : Shows t cwd c names a ↔ (names, a) ∈ visits.map Visit.shown := by
  unfold Shows
  rw [← mem_shown (congrArg Walk.fault hwalk), hwalk]

/-- What comes first has the lesser names. -/
def ShownBefore (a b : List Name × Appearance) : Prop := List.Lex (· < ·) a.1 b.1

instance : Std.Asymm ShownBefore :=
  ⟨fun a b hab => Std.Asymm.asymm (r := List.Lex (· < ·)) a.1 b.1 hab⟩

theorem shown_pairwise (t : Tree) (cwd : Loc) (source dest exclude : Path) :
    ((archiveWalk t cwd source dest exclude).visits.map Visit.shown).Pairwise ShownBefore :=
  List.pairwise_map.mpr (archiveWalk_pairwise t cwd source dest exclude)

/-! ## Archives of their own -/

/-- When the archive was just created at `place`, that is a regular file of its own: it is not the
file of the artifact, and nothing that is packaged leads there. The artifact is not a device either.
-/
structure Apart (opened : Tree) (cwd : Loc) (c : Config) (place : Loc) : Prop where
  archive : ∃ mode, opened.get? place = some (.file [] mode)
  artifact : ∀ pos, opened.resolve cwd c.artifactPath = .ok pos →
    pos.loc ≠ place ∧ ∀ d, opened.get? pos.loc ≠ some (.device d)
  sources : ∀ names node,
    ¬ Kept opened cwd c.sourceDir c.archivePath c.targetDir names place node

/-- Wherever the archive of a project is created, it is apart. -/
def Unhindered (t : Tree) (cwd : Loc) (c : Config) : Prop :=
  ∀ place opened, Tree.create cwd c.archivePath (prepared t cwd c) = .ok (place, opened) →
    Apart opened cwd c place

/-- An archive that is apart holds what is shown. -/
theorem writeArchive_apart (hcreate : Tree.create cwd c.archivePath made = .ok (place, opened))
    (hapart : Apart opened cwd c place)
    (h : (writeArchive cwd c.sourceDir c.archivePath c.targetDir).exec made =
      (.ok summary, archived)) :
    ∃ shown : List (List Name × Appearance), shown.Pairwise ShownBefore ∧
      (∀ names a, (names, a) ∈ shown ↔ ∃ loc node,
        Kept made cwd c.sourceDir c.archivePath c.targetDir names loc node ∧
          Appearance.of node = a) ∧
      summary = ⟨shown.length, shown.any fun s =>
        Zip.joinNames (entryNames s.1) = entryPoint && !s.2.isDir⟩ ∧
      (∃ mode, archived.get? place =
        some (.file (Zip.encode (shown.map fun s => s.2.entry s.1)) mode)) ∧
      ∀ k, k ≠ place → archived.get? k = opened.get? k := by
  obtain ⟨place', opened', hcreate', hok, -, rfl, hwrite⟩ := writeArchive_ok h
  rw [hcreate] at hcreate'
  cases hcreate'
  obtain ⟨mode, hget⟩ := hapart.archive
  have hself : ∀ v ∈ (archiveWalk opened cwd c.sourceDir c.archivePath c.targetDir).visits,
      v.loc ≠ place := fun v hv he =>
    hapart.sources v.names v.node (he ▸ (mem_archiveWalk hok).mp hv)
  rw [draftOf_close hself] at hwrite
  obtain ⟨hfile, hframe⟩ := Tree.write_file hget hwrite
  refine ⟨_, shown_pairwise opened cwd c.sourceDir c.archivePath c.targetDir,
    fun names a => ?_, ?_, ⟨mode, ?_⟩, hframe⟩
  · rw [mem_shown hok]
    simp only [kept_created_iff hcreate hapart.sources]
  · exact summarize_eq
  · rw [hfile, List.map_map]
    simp only [entryFor_eq, Visit.shown, Function.comp_def]

/-! ## From the archive to the artifact -/

/-- An artifact that is not written over its archive is the line and the archive. -/
theorem writeArtifact_apart (harchive : t.resolve cwd archive = .ok pos)
    (hget : t.get? pos.loc = some (.file content mode))
    (happart : ∀ stop, t.resolve cwd artifact = .ok stop →
      stop.loc ≠ pos.loc ∧ ∀ d, t.get? stop.loc ≠ some (.device d))
    (h : (writeArtifact cwd line archive artifact).exec t = (.ok ⟨⟩, t')) :
    ∃ stop mode, t'.resolve cwd artifact = .ok stop ∧
      t'.get? stop.loc = some (.file (Bytes.ofString line ++ content) mode) := by
  obtain ⟨place, opened, found, hcreate, hread, hwrite⟩ := writeArtifact_ok h
  obtain ⟨stop, hstop, rfl⟩ := Tree.resolve_create hcreate
  have hagree := Tree.agreeOff_create hcreate
  have hbefore (hsome : (t.get? stop.loc).isSome) : t.resolve cwd artifact = .ok stop :=
    hagree.symm.resolve hstop fun _ => hsome
  have hne : pos.loc ≠ stop.loc := fun he =>
    (happart stop (hbefore (by simp [← he, hget]))).1 he.symm
  obtain rfl : found = content := by
    have hkept : opened.resolve cwd archive = .ok pos :=
      hagree.resolve harchive fun he => absurd he hne
    have hstat := Tree.stat_eq_ok.mpr ⟨pos, hkept, by rw [hagree.agree _ hne, hget]⟩
    rw [Tree.read_of_stat hstat] at hread
    exact (Except.ok.inj hread).symm
  obtain ⟨-, ⟨bits, hfile, -⟩ | ⟨d, hdevice, -⟩⟩ := Tree.create_ok hcreate
  · obtain ⟨hwritten, hframe⟩ := Tree.write_file hfile hwrite
    have hagree := Tree.agreeOff_of_files hfile hwritten hframe
    exact ⟨stop, bits, hagree.resolve hstop fun _ => by simp [hwritten], hwritten⟩
  · exact absurd hdevice ((happart stop (hbefore (by simp [hdevice]))).2 d)

/-! ## Target directories that are in nobody's way -/

/-- In this directory the names of the artifact and of the archive are free, or those of files. -/
def PlainIn (t : Tree) (c : Config) (dir : Loc) : Prop :=
  ∀ n ∈ ([c.name, c.name ++ ".zip"] : List Name), ∀ node, t.get? (dir ++ [n]) = some node →
    ∃ content mode, node = .file content mode

/-- An archive is apart if no link and no device is in its way in the target directory, and nothing
that is packaged comes from there. -/
theorem unhindered_of_plain (hvalid : c.Valid)
    (htarget : (prepared t cwd c).resolve cwd c.targetDir = .ok pos)
    (hplain : PlainIn (prepared t cwd c) c pos.loc)
    (hspared : ∀ opened, Tree.create cwd c.archivePath (prepared t cwd c) =
        .ok (pos.loc ++ [(c.name ++ ".zip" : Name)], opened) →
      ∀ names, ¬ Intrudes opened cwd c pos.loc (pos.loc ++ [(c.name ++ ".zip" : Name)]) names) :
    Unhindered t cwd c := by
  intro place opened hcreate
  have hzip := hplain (c.name ++ ".zip") (by simp)
  have hplace : place = pos.loc ++ [(c.name ++ ".zip" : Name)] := by
    obtain ⟨pos', hpos', -, hplace⟩ := Tree.create_child_ok c.bytes_targetDir_ne
      c.endsWithSlash_targetDir hvalid.archiveName_isEntry hcreate
    obtain rfl : pos' = pos := Except.ok.inj (hpos'.symm.trans htarget)
    rcases hplace with hplace | ⟨target, hlink⟩
    · exact hplace
    · obtain ⟨_, _, he⟩ := hzip _ hlink
      cases he
  subst hplace
  have hagree := Tree.agreeOff_create hcreate
  have hne : pos.loc ++ [(c.name : Name)] ≠ pos.loc ++ [(c.name ++ ".zip" : Name)] :=
    Ne.symm (by simp)
  have hname (node : Node) (hget : opened.get? (pos.loc ++ [(c.name : Name)]) = some node) :
      ∃ content mode, node = .file content mode :=
    hplain c.name (by simp) node (by rw [← hagree.agree _ hne, hget])
  refine ⟨?_, fun stop hstop => ?_, fun names node hkept => ?_⟩
  · obtain ⟨-, ⟨mode, hget, -⟩ | ⟨d, hdevice, -⟩⟩ := Tree.create_ok hcreate
    · exact ⟨mode, hget⟩
    · obtain ⟨_, _, he⟩ := hzip _ hdevice
      cases he
  · have hdir : opened.resolve cwd c.targetDir = .ok pos :=
      hagree.resolve htarget fun he => absurd he (by simp)
    have hloc : stop.loc = pos.loc ++ [(c.name : Name)] := by
      refine Tree.loc_of_resolve_child hvalid.name_isEntry hdir (fun target hlink => ?_) hstop
      obtain ⟨_, _, he⟩ := hname _ hlink
      cases he
    rw [hloc]
    refine ⟨hne, fun d hdevice => ?_⟩
    obtain ⟨_, _, he⟩ := hname _ hdevice
    cases he
  · exact hspared opened hcreate names
      ((intrudes_iff_kept hvalid).mpr ⟨_, node, hkept, Or.inr rfl⟩)

/-- That nothing comes from the target directory can be read off the walk as well. -/
theorem unhindered_of_walk (hvalid : c.Valid)
    (htarget : (prepared t cwd c).resolve cwd c.targetDir = .ok pos)
    (hplain : PlainIn (prepared t cwd c) c pos.loc)
    (hwalk : (Tree.create cwd c.archivePath (prepared t cwd c)).map (fun created =>
      archiveWalk created.2 cwd c.sourceDir c.archivePath c.targetDir) = .ok ⟨visits, none⟩)
    (hspared : ∀ v ∈ visits, ¬ pos.loc <+: v.loc ∧ v.loc ≠ pos.loc ++ [(c.name ++ ".zip" : Name)]) :
    Unhindered t cwd c := by
  refine unhindered_of_plain hvalid htarget hplain fun opened hcreate => ?_
  rw [hcreate] at hwalk
  have hvisits := Except.ok.inj hwalk
  exact (spared_iff hvalid (congrArg Walk.fault hvisits)).mp (by simpa [hvisits] using hspared)

/-! ## The artifact -/

/-- The artifact of a project whose archive is apart is the line and an archive of what is shown. -/
theorem Stages.stat_artifact (hfree : Unhindered t cwd c)
    (h : Stages cwd c report summary t made archived joined marked t') :
    ∃ shown : List (List Name × Appearance), shown.Pairwise ShownBefore ∧
      (∀ names a, (names, a) ∈ shown ↔ Shows t cwd c names a) ∧
      summary = ⟨shown.length, shown.any fun s =>
        Zip.joinNames (entryNames s.1) = entryPoint && !s.2.isDir⟩ ∧
      t'.stat cwd c.artifactPath = .ok (.file (Bytes.ofString c.shebang ++
        Zip.encode (shown.map fun s => s.2.entry s.1)) artifactMode) := by
  have hmade : prepared t cwd c = made := congrArg Prod.snd h.makes
  obtain ⟨place, opened, hcreate, -⟩ := writeArchive_ok h.archives
  have hapart := hfree place opened (hmade.symm ▸ hcreate)
  obtain ⟨shown, hsorted, hshown, hsummary, ⟨mode, hzip⟩, hframe⟩ :=
    writeArchive_apart hcreate hapart h.archives
  refine ⟨shown, hsorted, fun names a => by rw [hshown, Shows, hmade], hsummary, ?_⟩
  obtain ⟨bits, hopened⟩ := hapart.archive
  have hagree := Tree.agreeOff_of_files hopened hzip hframe
  obtain ⟨pos, hpos, rfl⟩ := Tree.resolve_create hcreate
  obtain ⟨stop, old, hstop, hfile⟩ := writeArtifact_apart
    (hagree.resolve hpos fun _ => by simp [hzip]) hzip (fun stop hstop => by
      obtain ⟨hne, hdevice⟩ := hapart.artifact stop
        (hagree.symm.resolve hstop fun _ => by simp [hopened])
      exact ⟨hne, fun d => by rw [hframe _ hne]; exact hdevice d⟩) h.joins
  obtain ⟨hmarked, hcontent⟩ := Tree.resolve_setMode hstop hfile h.marks
  obtain ⟨node, hstat, -⟩ := fileSize_ok h.size
  obtain ⟨last, hlast, hnode⟩ := Tree.stat_eq_ok.mp hstat
  -- the artifact is found in the end, so it is found where it was before the archive was removed
  have hbefore := Tree.resolve_of_subset (fun l n => get?_of_removeFile h.removes) hlast
  rw [hmarked] at hbefore
  cases hbefore
  have hsame := get?_of_removeFile h.removes hnode
  rw [hcontent] at hsame
  rw [hstat, Option.some.inj hsame]

/-- The report tells of the artifact that is there. -/
theorem Stages.report_eq (h : Stages cwd c report summary t made archived joined marked t')
    (hstat : t'.stat cwd c.artifactPath = .ok (.file content mode)) :
    report = ⟨c.artifactPath, c.python, summary.entries, content.length,
      Digest.hex (Digest.sha256 content), summary.hasEntryPoint⟩ := by
  obtain ⟨node, hnode, hsize⟩ := fileSize_ok h.size
  rw [hstat] at hnode
  cases hnode
  obtain ⟨found, hread, hdigest⟩ := Digest.hashFile_ok h.digest
  rw [Tree.read_of_stat hstat] at hread
  cases hread
  rw [← h.artifact, ← h.interpreter, ← h.entries, ← h.hasEntryPoint, ← hdigest]
  show report = ⟨_, _, _, Node.size (.file content mode), _, _⟩
  rw [← hsize]

/-- **An artifact depends on nothing but the interpreter and what the sources show.** Two projects
with the same interpreter whose sources show the same are packaged to the same bytes, if nothing is
in the way of their archives; and but for the path of the artifact the reports are the same. -/
theorem artifact_eq_of_shows (h₁ : (run cwd₁ c₁).exec t₁ = (.ok report₁, t₁'))
    (h₂ : (run cwd₂ c₂).exec t₂ = (.ok report₂, t₂')) (hpython : c₁.python = c₂.python)
    (hfree₁ : Unhindered t₁ cwd₁ c₁) (hfree₂ : Unhindered t₂ cwd₂ c₂)
    (hshows : ∀ names a, Shows t₁ cwd₁ c₁ names a ↔ Shows t₂ cwd₂ c₂ names a) :
    ∃ content, t₁'.stat cwd₁ c₁.artifactPath = .ok (.file content artifactMode) ∧
      t₂'.stat cwd₂ c₂.artifactPath = .ok (.file content artifactMode) ∧
      report₂ = { report₁ with artifact := c₂.artifactPath } := by
  obtain ⟨made₁, archived₁, joined₁, marked₁, summary₁, hstages₁⟩ := run_ok h₁
  obtain ⟨made₂, archived₂, joined₂, marked₂, summary₂, hstages₂⟩ := run_ok h₂
  obtain ⟨shown₁, hsorted₁, hmem₁, rfl, hstat₁⟩ := hstages₁.stat_artifact hfree₁
  obtain ⟨shown₂, hsorted₂, hmem₂, rfl, hstat₂⟩ := hstages₂.stat_artifact hfree₂
  obtain rfl : shown₁ = shown₂ := hsorted₁.eq_of_mem_iff hsorted₂ fun s => by
    rw [hmem₁, hmem₂, hshows]
  have hshebang : c₁.shebang = c₂.shebang := by
    unfold Config.shebang
    rw [hpython]
  rw [← hshebang] at hstat₂
  refine ⟨_, hstat₁, hstat₂, ?_⟩
  rw [hstages₁.report_eq hstat₁, hstages₂.report_eq hstat₂, hpython]

/-- A project without links, in which nothing was ever built. -/
def plainProject : Tree :=
  Tree.placeAll [] [.file ⟨"/p/src/a.py"⟩ [1] 0o744] Tree.empty

/-- Its configuration. -/
def plainConfig : Config := Config.withRoot ⟨"/p"⟩

/-- A project with the same module behind a link, beside a compiled file and an older build. -/
def linkedProject : Tree :=
  Tree.placeAll [] [.file ⟨"/store/x"⟩ [1] 0o601, .file ⟨"/w/code/a.pyc"⟩ [2] 0o644,
    .link ⟨"/w/code/a.py"⟩ ⟨"/store/x"⟩, .file ⟨"/w/target/tool"⟩ [3] 0o600,
    .file ⟨"/w/target/tool.zip"⟩ [4] 0o644] Tree.empty

/-- Its configuration. -/
def linkedConfig : Config :=
  { Config.withRoot ⟨"/w"⟩ with name := "tool", src := ⟨"../w/./code/"⟩ }

set_option maxRecDepth 100000 in
theorem unhindered_plainProject : Unhindered plainProject [] plainConfig := by
  have htarget : (prepared plainProject [] plainConfig).resolve [] plainConfig.targetDir =
      .ok ⟨["p", "target"], Tree.maxLinks⟩ := by
    decide +kernel
  have hnone : ∀ n ∈ (["templates", "templates.zip"] : List Name),
      (prepared plainProject [] plainConfig).get? ((["p", "target"] : Loc) ++ [n]) = none := by
    decide +kernel
  have hwalk : (Tree.create [] plainConfig.archivePath (prepared plainProject [] plainConfig)).map
      (fun created => archiveWalk created.2 [] plainConfig.sourceDir plainConfig.archivePath
        plainConfig.targetDir) =
      .ok ⟨[⟨["a.py"], ["p", "src", "a.py"], .file [1] 0o744⟩], none⟩ := by
    decide +kernel
  refine unhindered_of_walk (by decide) htarget (fun n hn node hget => ?_) hwalk (by decide)
  rw [hnone n hn] at hget
  cases hget

set_option maxRecDepth 100000 in
theorem unhindered_linkedProject : Unhindered linkedProject ["w"] linkedConfig := by
  have htarget : (prepared linkedProject ["w"] linkedConfig).resolve ["w"] linkedConfig.targetDir =
      .ok ⟨["w", "target"], Tree.maxLinks⟩ := by
    decide +kernel
  have hartifact : (prepared linkedProject ["w"] linkedConfig).get? ["w", "target", "tool"] =
      some (.file [3] 0o600) := by
    decide +kernel
  have harchive : (prepared linkedProject ["w"] linkedConfig).get? ["w", "target", "tool.zip"] =
      some (.file [4] 0o644) := by
    decide +kernel
  have hwalk : (Tree.create ["w"] linkedConfig.archivePath
      (prepared linkedProject ["w"] linkedConfig)).map (fun created =>
        archiveWalk created.2 ["w"] linkedConfig.sourceDir linkedConfig.archivePath
          linkedConfig.targetDir) =
      .ok ⟨[⟨["a.py"], ["store", "x"], .file [1] 0o601⟩], none⟩ := by
    decide +kernel
  refine unhindered_of_walk (by decide) htarget (fun n hn node hget => ?_) hwalk (by decide)
  rcases List.mem_pair.mp hn with rfl | rfl
  · exact ⟨_, _, Option.some.inj (hget.symm.trans hartifact)⟩
  · exact ⟨_, _, Option.some.inj (hget.symm.trans harchive)⟩

set_option maxRecDepth 100000 in
theorem shows_plainProject_iff {a : Appearance} : Shows plainProject [] plainConfig names a ↔
    Shows linkedProject ["w"] linkedConfig names a := by
  have hplain : archiveWalk (prepared plainProject [] plainConfig) [] plainConfig.sourceDir
      plainConfig.archivePath plainConfig.targetDir =
      ⟨[⟨["a.py"], ["p", "src", "a.py"], .file [1] 0o744⟩], none⟩ := by
    decide +kernel
  have hlinked : archiveWalk (prepared linkedProject ["w"] linkedConfig) ["w"]
      linkedConfig.sourceDir linkedConfig.archivePath linkedConfig.targetDir =
      ⟨[⟨["a.py"], ["store", "x"], .file [1] 0o601⟩], none⟩ := by
    decide +kernel
  rw [shows_iff_mem hplain, shows_iff_mem hlinked]
  exact Iff.rfl

set_option maxRecDepth 100000 in
theorem artifact_eq_of_shows_linked :
    ∃ report₁ t₁' report₂ t₂',
      (run [] plainConfig).exec plainProject = (.ok report₁, t₁') ∧
      (run ["w"] linkedConfig).exec linkedProject = (.ok report₂, t₂') ∧
      Unhindered plainProject [] plainConfig ∧ Unhindered linkedProject ["w"] linkedConfig ∧
      (∀ names a, Shows plainProject [] plainConfig names a ↔
        Shows linkedProject ["w"] linkedConfig names a) ∧
      ∃ content, t₁'.stat [] plainConfig.artifactPath = .ok (.file content artifactMode) ∧
        t₂'.stat ["w"] linkedConfig.artifactPath = .ok (.file content artifactMode) ∧
        report₂ = { report₁ with artifact := linkedConfig.artifactPath } := by
  have hrun₁ : ((run [] plainConfig).exec plainProject).1.isOk = true := by decide +kernel
  have hrun₂ : ((run ["w"] linkedConfig).exec linkedProject).1.isOk = true := by decide +kernel
  generalize hafter₁ : (run [] plainConfig).exec plainProject = after₁ at hrun₁
  generalize hafter₂ : (run ["w"] linkedConfig).exec linkedProject = after₂ at hrun₂
  obtain ⟨_ | report₁, t₁'⟩ := after₁
  · cases hrun₁
  obtain ⟨_ | report₂, t₂'⟩ := after₂
  · cases hrun₂
  exact ⟨report₁, t₁', report₂, t₂', rfl, rfl, unhindered_plainProject, unhindered_linkedProject,
    fun _ _ => shows_plainProject_iff, artifact_eq_of_shows hafter₁ hafter₂ rfl
      unhindered_plainProject unhindered_linkedProject fun _ _ => shows_plainProject_iff⟩

/-! ## A link that was left at the name of the archive -/

/-- A target directory that is there is not made. -/
theorem prepared_eq (h : t.stat cwd c.targetDir = .ok .dir) : prepared t cwd c = t :=
  congrArg Prod.snd (Tree.makeDirAll_of_isDir (Name.isEntry_of_valid (by decide)) h)

/-- A project with one module and an empty target directory. -/
def tidyProject : Tree :=
  Tree.placeAll [] [.file ⟨"/p/src/a.py"⟩ [49] 0o644, .dir ⟨"/p/target"⟩] Tree.empty

/-- The same project with a link to the module at the name of the archive. -/
def strayProject : Tree :=
  Tree.placeAll [] [.file ⟨"/p/src/a.py"⟩ [49] 0o644,
    .link ⟨"/p/target/templates.zip"⟩ ⟨"../src/a.py"⟩] Tree.empty

set_option maxRecDepth 100000 in
/-- **A link in the target directory can change the artifact** of sources that show the same and
lead nowhere near that directory: the archive is written over the module that it is to hold. -/
theorem stray_link_changes_artifact :
    plainConfig.Valid ∧
      (∀ t ∈ [tidyProject, strayProject], prepared t [] plainConfig = t ∧
        ∀ names loc node, Kept t [] plainConfig.sourceDir plainConfig.archivePath
          plainConfig.targetDir names loc node → ¬ (["p", "target"] : Loc) <+: loc) ∧
      (∀ names a, Shows tidyProject [] plainConfig names a ↔
        Shows strayProject [] plainConfig names a) ∧
      ∃ report₁ t₁' report₂ t₂',
        (run [] plainConfig).exec tidyProject = (.ok report₁, t₁') ∧
        (run [] plainConfig).exec strayProject = (.ok report₂, t₂') ∧
        t₁'.isFile [] plainConfig.artifactPath ∧ t₂'.isFile [] plainConfig.artifactPath ∧
        t₁'.read [] plainConfig.artifactPath ≠ t₂'.read [] plainConfig.artifactPath := by
  have htarget : ∀ t ∈ [tidyProject, strayProject], t.stat [] plainConfig.targetDir = .ok .dir := by
    decide +kernel
  have hwalk : ∀ t ∈ [tidyProject, strayProject], archiveWalk t [] plainConfig.sourceDir
      plainConfig.archivePath plainConfig.targetDir =
      ⟨[⟨["a.py"], ["p", "src", "a.py"], .file [49] 0o644⟩], none⟩ := by
    decide +kernel
  have hshows {t : Tree} (ht : t ∈ [tidyProject, strayProject]) (names : List Name)
      (a : Appearance) : Shows t [] plainConfig names a ↔
        (names, a) ∈
          [(⟨["a.py"], ["p", "src", "a.py"], .file [49] 0o644⟩ : Visit)].map Visit.shown :=
    shows_iff_mem (by rw [prepared_eq (htarget t ht), hwalk t ht])
  have hrun : ((run [] plainConfig).exec tidyProject).1.isOk = true ∧
      ((run [] plainConfig).exec strayProject).1.isOk = true ∧
      ((run [] plainConfig).exec tidyProject).2.isFile [] plainConfig.artifactPath = true ∧
      ((run [] plainConfig).exec strayProject).2.isFile [] plainConfig.artifactPath = true ∧
      ((run [] plainConfig).exec tidyProject).2.read [] plainConfig.artifactPath ≠
        ((run [] plainConfig).exec strayProject).2.read [] plainConfig.artifactPath := by
    decide +kernel
  refine ⟨by decide, fun t ht => ⟨prepared_eq (htarget t ht), fun names loc node h => ?_⟩,
    fun names a => (hshows (by simp) names a).trans (hshows (by simp) names a).symm, ?_⟩
  · have hv := (mem_archiveWalk (v := ⟨names, loc, node⟩) (congrArg Walk.fault (hwalk t ht))).mpr h
    rw [hwalk t ht] at hv
    obtain ⟨-, rfl, -⟩ := Visit.mk.inj (List.mem_singleton.mp hv)
    decide
  · generalize (run [] plainConfig).exec tidyProject = after₁ at hrun
    generalize (run [] plainConfig).exec strayProject = after₂ at hrun
    obtain ⟨hok₁, hok₂, hfiles⟩ := hrun
    obtain ⟨_ | report₁, t₁'⟩ := after₁
    · cases hok₁
    obtain ⟨_ | report₂, t₂'⟩ := after₂
    · cases hok₂
    exact ⟨report₁, t₁', report₂, t₂', rfl, rfl, hfiles⟩

end Zipship.Package
