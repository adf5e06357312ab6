import Zipship.Proofs.Config.Valid
import Zipship.Proofs.Package.Fresh
import Zipship.Proofs.Zip.Size
import Zipship.Tree.Layout

/-!
# Whether the build output is packaged

What is in the target directory stays out of the archive by its spelled path. A walk that comes to
the target directory under another spelling packages it, and with it the archive that is being
written: `output_spared_iff` says exactly when that does not happen. It does happen for a source
that goes back up (`output_packs_itself`).
-/

namespace Zipship.Package

variable {t t' made opened : Tree} {cwd output place loc : Loc} {c : Config} {report : Report}
  {names : List Name} {node : Node}

/-- Names by which the walk of a project comes to its output or to the archive: they lead there, but
are not spelled in the target directory, and nothing on the way was made by an interpreter. -/
structure Intrudes (t : Tree) (cwd : Loc) (c : Config) (output place : Loc) (names : List Name) :
    Prop where
  ne_nil : names ≠ []
  valid : ∀ n ∈ names, n.valid = true
  arrives : ∃ loc node, t.Leads cwd c.sourceDir names loc node ∧ (output <+: loc ∨ loc = place)
  outside : ¬ c.targetDir.components <+: (c.sourceDir.descend names).components
  uncompiled : ∀ q l m, q <+: names → q ≠ [] → t.Leads cwd c.sourceDir q l m → ¬ Compiled q m

/-- The archive is spelled in the target directory. -/
theorem isPrefix_archivePath (h : c.Valid) :
    c.targetDir.components <+: c.archivePath.components := by
  unfold Config.archivePath
  rw [Path.components_child h.archiveName_isEntry]
  exact List.prefix_append _ _

theorem isPrefix_components_descend {p : Path} {q : List Name}
    (hvalid : ∀ n ∈ names, n.valid = true) (hq : q <+: names) :
    (p.descend q).components <+: (p.descend names).components := by
  have hentry : ∀ n ∈ names, n.IsEntry := fun n hn => Name.isEntry_of_valid (hvalid n hn)
  rw [Path.components_descend hentry, Path.components_descend fun n hn => hentry n (hq.subset hn),
    List.prefix_append_right_inj]
  exact hq.map _

/-- What is packaged is what is spelled outside the target directory and does not come through
anything that an interpreter made. -/
theorem kept_iff_outside (hvalid : c.Valid) :
    Kept t cwd c.sourceDir c.archivePath c.targetDir names loc node ↔
      names ≠ [] ∧ (∀ n ∈ names, n.valid = true) ∧ t.Leads cwd c.sourceDir names loc node ∧
        ¬ c.targetDir.components <+: (c.sourceDir.descend names).components ∧
        ∀ q l m, q <+: names → q ≠ [] → t.Leads cwd c.sourceDir q l m → ¬ Compiled q m := by
  constructor
  · intro h
    refine ⟨h.ne_nil, h.valid, h.leads, fun hbelow => ?_, fun q l m hq hne hl hcompiled => ?_⟩
    · exact h.free names loc node List.prefix_rfl h.ne_nil h.leads (.excluded hbelow)
    · exact h.free q l m hq hne hl (.compiled hcompiled)
  · rintro ⟨hne, hnames, hleads, houtside, huncompiled⟩
    refine ⟨hne, hnames, hleads, fun q l m hq hqne hl hleft => ?_⟩
    have hspelled := isPrefix_components_descend (p := c.sourceDir) hnames hq
    rcases hleft with h | h | h
    · exact huncompiled q l m hq hqne hl h
    · exact houtside (((isPrefix_archivePath hvalid).trans (h ▸ List.prefix_rfl)).trans hspelled)
    · exact houtside (h.trans hspelled)

theorem intrudes_iff_kept (hvalid : c.Valid) : Intrudes t cwd c output place names ↔
    ∃ loc node, Kept t cwd c.sourceDir c.archivePath c.targetDir names loc node ∧
      (output <+: loc ∨ loc = place) := by
  constructor
  · rintro ⟨hne, hnames, ⟨loc, node, hleads, hthere⟩, houtside, huncompiled⟩
    exact ⟨loc, node,
      (kept_iff_outside hvalid).mpr ⟨hne, hnames, hleads, houtside, huncompiled⟩, hthere⟩
  · rintro ⟨loc, node, hkept, hthere⟩
    obtain ⟨hne, hnames, hleads, houtside, huncompiled⟩ := (kept_iff_outside hvalid).mp hkept
    exact ⟨hne, hnames, ⟨loc, node, hleads, hthere⟩, houtside, huncompiled⟩

/-- The path of the target directory leads to a directory while the archive is written. -/
theorem targetDir_resolves (hvalid : c.Valid)
    (hcreate : Tree.create cwd c.archivePath made = .ok (place, opened)) :
    ∃ output links, opened.resolve cwd c.targetDir = .ok ⟨output, links⟩ ∧
      opened.get? output = some .dir := by
  obtain ⟨⟨output, links⟩, hresolve, hdir, -⟩ := Tree.create_child_ok c.bytes_targetDir_ne
    c.endsWithSlash_targetDir hvalid.archiveName_isEntry hcreate
  have hagree := Tree.agreeOff_create hcreate
  have hne : output ≠ place := hagree.ne_of_isDir hdir
  exact ⟨output, links, hagree.resolve hresolve fun he => absurd he hne,
    by rw [hagree.agree output hne, hdir]⟩

/-- A walk that comes to its end meets neither a place nor what is in a directory exactly when no
names intrude there. -/
theorem spared_iff (hvalid : c.Valid)
    (hok : (archiveWalk opened cwd c.sourceDir c.archivePath c.targetDir).fault = none) :
    (∀ v ∈ (archiveWalk opened cwd c.sourceDir c.archivePath c.targetDir).visits,
        ¬ output <+: v.loc ∧ v.loc ≠ place) ↔
      ∀ names, ¬ Intrudes opened cwd c output place names := by
  constructor
  · intro hspared names hintrudes
    obtain ⟨loc, node, hkept, hthere⟩ := (intrudes_iff_kept hvalid).mp hintrudes
    have hv := hspared ⟨names, loc, node⟩ ((mem_archiveWalk hok).mpr hkept)
    exact hthere.elim hv.1 hv.2
  · intro hnone v hv
    have hkept := (mem_archiveWalk hok).mp hv
    exact ⟨fun hbelow => hnone v.names ((intrudes_iff_kept hvalid).mpr
        ⟨v.loc, v.node, hkept, Or.inl hbelow⟩),
      fun he => hnone v.names ((intrudes_iff_kept hvalid).mpr
        ⟨v.loc, v.node, hkept, Or.inr he⟩)⟩

/-- **When the build output stays out of the archive**: exactly when no names intrude. -/
theorem output_spared_iff (hvalid : c.Valid) (h : (run cwd c).exec t = (.ok report, t')) :
    ∃ made place opened output links,
      (Tree.makeDirAll cwd c.targetDir).exec t = (.ok ⟨⟩, made) ∧
      Tree.create cwd c.archivePath made = .ok (place, opened) ∧
      opened.resolve cwd c.targetDir = .ok ⟨output, links⟩ ∧
      opened.get? output = some .dir ∧
      ((∀ v ∈ (archiveWalk opened cwd c.sourceDir c.archivePath c.targetDir).visits,
          ¬ output <+: v.loc ∧ v.loc ≠ place) ↔
        ∀ names, ¬ Intrudes opened cwd c output place names) := by
  obtain ⟨made, archived, joined, marked, summary, hstages⟩ := run_ok h
  obtain ⟨place, opened, hcreate, hok, -, -⟩ := writeArchive_ok hstages.archives
  obtain ⟨output, links, hresolve, hdir⟩ := targetDir_resolves hvalid hcreate
  exact ⟨made, place, opened, output, links, hstages.makes, hcreate, hresolve, hdir,
    spared_iff hvalid hok⟩

/-- Nothing intrudes in a project without links whose source is spelled without going back: what is
in the target directory is spelled there. -/
theorem not_intrudes_of_unlinked {root src : Loc} (hroot : c.root = root.path)
    (hdir : opened.get? root = some .dir)
    (hsource : c.sourceDir.components = .root :: src.map .name)
    (hsrc : opened.get? src = some .dir)
    (hlinks : ∀ below target, opened.get? (src ++ below) ≠ some (.link target))
    (hplace : root ++ [Config.targetName] <+: place) :
    ¬ Intrudes opened cwd c (root ++ [Config.targetName]) place names := by
  rintro ⟨hne, hnames, ⟨loc, node, ⟨start, stop, hs, hf, rfl, hget⟩, hthere⟩, houtside, -⟩
  have hstart : start.loc = src := Tree.loc_of_resolve_components hsource hsrc hs
  rw [hstart] at hf
  have hloc : stop.loc = src ++ names := Tree.loc_of_follow_unlinked hf hnames hlinks
  have hbelow : root ++ [Config.targetName] <+: src ++ names := by
    rw [← hloc]
    exact hthere.elim id fun he => he ▸ hplace
  have hentry : ∀ n ∈ root, n.IsEntry := fun n hn =>
    Name.isEntry_of_valid (Tree.valid_of_get? hdir n hn)
  have htarget : c.targetDir.components =
      .root :: (root ++ [Config.targetName]).map Component.name := by
    have hspells := Loc.spells_path fun n hn => (hentry n hn).toIsPiece
    unfold Config.targetDir
    rw [hroot, Path.components_child ⟨⟨by decide, by decide⟩, by decide, by decide⟩,
      hspells.components hentry, List.map_append]
    rfl
  apply houtside
  rw [htarget, Path.components_descend fun n hn => Name.isEntry_of_valid (hnames n hn), hsource,
    List.cons_append, ← List.map_append]
  exact List.cons_prefix_cons.mpr ⟨rfl, hbelow.map _⟩

/-- A project with one module. -/
def project : Tree := Tree.placeAll [] [.file ⟨"/p/pkg/a.py"⟩ [49] 0o644] Tree.empty

/-- Its configuration, with a source. -/
def packaging (src : Path) : Config := { Config.withRoot ⟨"/p"⟩ with src }

set_option maxRecDepth 100000 in
theorem output_spared_iff_project :
    ∃ report t', (run [] (packaging ⟨"pkg"⟩)).exec project = (.ok report, t') ∧
      ∃ made place opened output links,
        (Tree.makeDirAll [] (packaging ⟨"pkg"⟩).targetDir).exec project = (.ok ⟨⟩, made) ∧
        Tree.create [] (packaging ⟨"pkg"⟩).archivePath made = .ok (place, opened) ∧
        opened.resolve [] (packaging ⟨"pkg"⟩).targetDir = .ok ⟨output, links⟩ ∧
        opened.get? output = some .dir ∧
        ((∀ v ∈ (archiveWalk opened [] (packaging ⟨"pkg"⟩).sourceDir
            (packaging ⟨"pkg"⟩).archivePath (packaging ⟨"pkg"⟩).targetDir).visits,
            ¬ output <+: v.loc ∧ v.loc ≠ place) ↔
          ∀ names, ¬ Intrudes opened [] (packaging ⟨"pkg"⟩) output place names) := by
  have hvalid : (packaging ⟨"pkg"⟩).Valid := by decide +kernel
  have hok : ((run [] (packaging ⟨"pkg"⟩)).exec project).1.isOk = true := by decide +kernel
  generalize hafter : (run [] (packaging ⟨"pkg"⟩)).exec project = after at hok
  obtain ⟨_ | report, t'⟩ := after
  · cases hok
  · exact ⟨report, t', rfl, output_spared_iff hvalid hafter⟩

/-- The walk of the project from a source that goes back up, while the archive is written. -/
def visitsBackUp : List Visit :=
  [⟨["pkg"], ["p", "pkg"], .dir⟩, ⟨["pkg", "a.py"], ["p", "pkg", "a.py"], .file [49] 0o644⟩,
    ⟨["target"], ["p", "target"], .dir⟩,
    ⟨["target", "templates.zip"], ["p", "target", "templates.zip"], .file [] 0o644⟩]

/-- What was written of the archive until the walk meets it is far below any limit. -/
theorem takes_visitsBackUp : Takes ["p", "target", "templates.zip"] visitsBackUp := by
  let pkg := Zip.Draft.empty.add ⟨"pkg/", .directory⟩
  let module := pkg.add ⟨"pkg/a.py", .file [49] false⟩
  let target := module.add ⟨"target/", .directory⟩
  have hshort : 2 * (target.opened ⟨"target/templates.zip", .file [] false⟩).length ≤
      Zip.maxSize := by
    have hempty : Zip.Draft.empty.records.length = 0 := rfl
    have hpkg : pkg.records.length ≤ _ := Zip.length_records_add_le _ _
    have hmodule : module.records.length ≤ _ := Zip.length_records_add_le _ _
    have htarget : target.records.length ≤ _ := Zip.length_records_add_le _ _
    have hopened := Zip.length_opened_le target ⟨"target/templates.zip", .file [] false⟩
    have hpacked : (Deflate.compress [49]).length ≤ 6 := Deflate.length_compress_le [49]
    have hnames : "pkg/".utf8ByteSize = 4 ∧ "pkg/a.py".utf8ByteSize = 8 ∧
      "target/".utf8ByteSize = 7 ∧ "target/templates.zip".utf8ByteSize = 20 := by decide +kernel
    simp only [Zip.Body.packed, List.length_nil] at hpkg hmodule htarget hopened
    unfold Zip.maxSize
    omega
  obtain ⟨hlarge, hpacked⟩ := taken_of_short
    (v := ⟨["target", "templates.zip"], ["p", "target", "templates.zip"], .file [] 0o644⟩)
    rfl rfl (hshort : 2 * (target.opened
      ⟨Zip.joinNames (entryNames ["target", "templates.zip"]), _⟩).length ≤ Zip.maxSize)
  exact ⟨by decide +kernel, by decide +kernel, by decide +kernel, by decide +kernel,
    by decide +kernel, by decide +kernel, by decide +kernel, by decide +kernel, by decide +kernel,
    by decide +kernel, hlarge, hpacked, ⟨⟩⟩

theorem run_backUp :
    ∃ report, ((run [] (packaging ⟨"pkg/.."⟩)).exec project).1 = .ok report := by
  have hvalid : (packaging ⟨"pkg/.."⟩).Valid := by decide +kernel
  have hfits : Fits (packaging ⟨"pkg/.."⟩) := ⟨by decide +kernel, by decide +kernel,
    by decide +kernel⟩
  have hwalk : sourceWalk project [] ["p"] (packaging ⟨"pkg/.."⟩) = ⟨visitsBackUp, none⟩ := by
    decide +kernel
  have hplace : (["p"] : Loc) ++ [("target" : Name)] ++
      [((packaging ⟨"pkg/.."⟩).name ++ ".zip" : Name)] =
      (["p", "target", "templates.zip"] : Loc) := by
    decide +kernel
  have hroot : project.get? ["p"] = some .dir := by decide +kernel
  refine run_of_filled hvalid hfits hroot (by decide +kernel) (by decide +kernel)
    (by decide +kernel) (by decide +kernel) ?_
  rw [sourceFill, hwalk, hplace, fill_of_takes takes_visitsBackUp]
  rfl

set_option maxRecDepth 100000 in
/-- **A source that goes back up packages the build output**, and in it the archive that is being
written. -/
theorem output_packs_itself :
    ∃ report t' made opened links,
      (packaging ⟨"pkg/.."⟩).Valid ∧
      (run [] (packaging ⟨"pkg/.."⟩)).exec project = (.ok report, t') ∧
      (Tree.makeDirAll [] (packaging ⟨"pkg/.."⟩).targetDir).exec project = (.ok ⟨⟩, made) ∧
      Tree.create [] (packaging ⟨"pkg/.."⟩).archivePath made =
        .ok (["p", "target", "templates.zip"], opened) ∧
      opened.resolve [] (packaging ⟨"pkg/.."⟩).targetDir = .ok ⟨["p", "target"], links⟩ ∧
      ∃ v ∈ (archiveWalk opened [] (packaging ⟨"pkg/.."⟩).sourceDir
          (packaging ⟨"pkg/.."⟩).archivePath (packaging ⟨"pkg/.."⟩).targetDir).visits,
        v.names = ["target", "templates.zip"] ∧ v.loc = ["p", "target", "templates.zip"] := by
  obtain ⟨report, hrun⟩ := run_backUp
  have hmake : ((Tree.makeDirAll [] (packaging ⟨"pkg/.."⟩).targetDir).exec project).1 = .ok ⟨⟩ := by
    decide +kernel
  have hwalk : (Tree.create [] (packaging ⟨"pkg/.."⟩).archivePath
      ((Tree.makeDirAll [] (packaging ⟨"pkg/.."⟩).targetDir).exec project).2).map (fun created =>
        (created.1, created.2.resolve [] (packaging ⟨"pkg/.."⟩).targetDir,
          (archiveWalk created.2 [] (packaging ⟨"pkg/.."⟩).sourceDir
            (packaging ⟨"pkg/.."⟩).archivePath (packaging ⟨"pkg/.."⟩).targetDir).visits)) =
      .ok (["p", "target", "templates.zip"], .ok ⟨["p", "target"], Tree.maxLinks⟩,
        [⟨["pkg"], ["p", "pkg"], .dir⟩, ⟨["pkg", "a.py"], ["p", "pkg", "a.py"], .file [49] 0o644⟩,
          ⟨["target"], ["p", "target"], .dir⟩,
          ⟨["target", "templates.zip"], ["p", "target", "templates.zip"], .file [] 0o644⟩]) := by
    decide +kernel
  generalize hafter : (run [] (packaging ⟨"pkg/.."⟩)).exec project = after at hrun
  generalize hmade : (Tree.makeDirAll [] (packaging ⟨"pkg/.."⟩).targetDir).exec project = made
    at hmake hwalk
  obtain ⟨outcome, t'⟩ := after
  obtain rfl : outcome = _ := hrun
  obtain ⟨result, made⟩ := made
  obtain rfl : result = _ := hmake
  cases hcreate : Tree.create [] (packaging ⟨"pkg/.."⟩).archivePath made with
  | error e =>
    rw [hcreate] at hwalk
    cases hwalk
  | ok created =>
    obtain ⟨place, opened⟩ := created
    rw [hcreate] at hwalk
    obtain ⟨hplace, hrest⟩ := Prod.mk.inj (Except.ok.inj hwalk)
    obtain ⟨hresolve, hvisits⟩ := Prod.mk.inj hrest
    obtain rfl : place = _ := hplace
    refine ⟨report, t', made, opened, _, by decide, rfl, rfl, hcreate, hresolve, ?_⟩
    exact ⟨⟨["target", "templates.zip"], ["p", "target", "templates.zip"], .file [] 0o644⟩,
      hvisits ▸ by simp, rfl, rfl⟩

end Zipship.Package
