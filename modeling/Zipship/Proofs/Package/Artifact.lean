import Zipship.Proofs.Clean.Exact
import Zipship.Proofs.Config.Valid
import Zipship.Proofs.Digest.Sha256
import Zipship.Proofs.Package.Stages
import Zipship.Proofs.Run.Execution
import Zipship.Proofs.Text.Lines
import Zipship.Proofs.Tree.Spelled

/-!
# What a clean build leaves

After cleaning there is nothing where the target directory belongs, so packaging makes that
directory and everything in it. Each of its steps has one effect there (`Stages.get?`), and in the
end the artifact stands alone: one line that names the interpreter, and then the archive
(`clean_compile_leaves_artifact`).
-/

namespace Zipship.Package

variable {t t' made archived joined marked : Tree} {cwd root l z : Loc} {c : Config}
  {report : Report} {summary : Summary} {p archive artifact : Path} {n : Name} {node : Node}
  {content : Bytes} {mode : Nat} {line : String}

/-- What a build leaves in the target directory, and what it says about it. -/
structure Artifact (t : Tree) (root : Loc) (c : Config) (report : Report) (archive : Bytes) :
    Prop where
  target_isDir : t.get? (root ++ [("target" : Name)]) = some .dir
  /-- Nothing else is in the target directory. -/
  alone : ∀ rest, (t.get? (root ++ ("target" : Name) :: rest)).isSome ↔
    rest = [] ∨ rest = [(c.name : Name)]
  archive_gone : t.get? (root ++ [("target" : Name), c.name ++ ".zip"]) = none
  /-- The artifact is a line that names the interpreter, and then the archive. -/
  file : t.get? (root ++ [("target" : Name), c.name]) =
    some (.file (Bytes.ofString ("#!" ++ c.python ++ "\n") ++ archive) 0o755)
  /-- That line is the first one, whatever the interpreter is. -/
  first_line : (Bytes.ofString ("#!" ++ c.python ++ "\n") ++ archive).takeWhile
    (· ≠ Bytes.newline) = Bytes.ofString ("#!" ++ c.python)
  behind_line : (Bytes.ofString ("#!" ++ c.python ++ "\n") ++ archive).dropWhile
    (· ≠ Bytes.newline) = Bytes.newline :: archive
  artifact_eq : report.artifact = c.artifactPath
  interpreter_eq : report.interpreter = c.python
  size_eq : report.sizeBytes = (Bytes.ofString ("#!" ++ c.python ++ "\n") ++ archive).length
  sha256_eq : report.sha256 =
    Digest.hex (Digest.sha256 (Bytes.ofString ("#!" ++ c.python ++ "\n") ++ archive))

/-! ## The steps at spelled places -/

/-- Writing an archive where nothing is makes a file of it. -/
theorem writeArchive_spelled {source exclude : Path} (hp : p.Spells (l ++ [n])) (hn : n.IsEntry)
    (hdir : t.get? l = some .dir) (hnone : t.get? (l ++ [n]) = none)
    (h : (writeArchive cwd source p exclude).exec t = (.ok summary, t')) :
    ∃ entries : List Zip.Entry, summary.entries = entries.length ∧
      ∀ k, t'.get? k =
        if k = l ++ [n] then some (.file (Zip.encode entries) Tree.newFileMode) else t.get? k := by
  obtain ⟨place, opened, hcreate, -, -, rfl, hwrite⟩ := writeArchive_ok h
  obtain ⟨rfl, hopened⟩ := Tree.create_spelled hp hn hdir hnone hcreate
  obtain ⟨entries, hall, hclose⟩ :=
    exists_entries (l ++ [n]) (archiveWalk opened cwd source p exclude).visits
  have hget : opened.get? (l ++ [n]) = some (.file [] Tree.newFileMode) := by
    rw [hopened, if_pos rfl]
  rw [hclose] at hwrite
  obtain ⟨hfile, hframe⟩ := Tree.write_file hget hwrite
  refine ⟨entries, hall.length_eq, fun k => ?_⟩
  by_cases hk : k = l ++ [n]
  · rw [if_pos hk, hk, hfile]
  · rw [if_neg hk, hframe k hk, hopened, if_neg hk]

/-- Writing an artifact where nothing is makes a file of the line and the archive. -/
theorem writeArtifact_spelled (hp : artifact.Spells (l ++ [n])) (hn : n.IsEntry)
    (hdir : t.get? l = some .dir) (hnone : t.get? (l ++ [n]) = none) (hz : archive.Spells z)
    (hget : t.get? z = some (.file content mode))
    (h : (writeArtifact cwd line archive artifact).exec t = (.ok ⟨⟩, t')) :
    ∀ k, t'.get? k = if k = l ++ [n] then
      some (.file (Bytes.ofString line ++ content) Tree.newFileMode) else t.get? k := by
  obtain ⟨place, opened, found, hcreate, hread, hwrite⟩ := writeArtifact_ok h
  obtain ⟨rfl, hopened⟩ := Tree.create_spelled hp hn hdir hnone hcreate
  have hne : z ≠ l ++ [n] := by
    rintro rfl
    rw [hnone] at hget
    cases hget
  have hz' : opened.get? z = some (.file content mode) := by rw [hopened, if_neg hne, hget]
  have hplace : opened.get? (l ++ [n]) = some (.file [] Tree.newFileMode) := by
    rw [hopened, if_pos rfl]
  obtain rfl := Tree.read_spelled hz hz' hread
  obtain ⟨hfile, hframe⟩ := Tree.write_file hplace hwrite
  intro k
  by_cases hk : k = l ++ [n]
  · rw [if_pos hk, hk, hfile]
  · rw [if_neg hk, hframe k hk, hopened, if_neg hk]

/-- Removing a file that is there removes it. -/
theorem removeFile_spelled (hp : p.Spells (l ++ [n])) (hget : t.get? (l ++ [n]) = some node)
    (h : (removeFile cwd p).exec t = (.ok ⟨⟩, t')) :
    ∀ k, t'.get? k = if l ++ [n] <+: k then none else t.get? k := by
  obtain ⟨hdir, hn⟩ := Tree.parent_of_get? hget
  unfold removeFile at h
  obtain ⟨now, t₁, hnow, h₁⟩ := Edit.exec_bind_ok h
  obtain ⟨rfl, rfl⟩ := Edit.exec_get_ok hnow
  rcases Tree.checkPath_cases hp.bytes_ne with hc | ⟨e, hc, he⟩
  · rw [Tree.locate_spelled hp hc hdir hn, if_pos (by simp [hget])] at h₁
    exact Tree.removeFile_spelled hp hget (Edit.exec_step_ok (Edit.exec_onError_ok h₁))
  · rw [Tree.locate_refused hc] at h₁
    simp only [if_neg he] at h₁
    cases h₁

/-! ## The steps in a tree without a target directory -/

section Places

variable (hvalid : c.Valid) (hroot : c.root = root.path) (hdir : t.get? root = some .dir)

include hroot hdir

theorem targetDir_spells : c.targetDir.Spells (root ++ [("target" : Name)]) := by
  unfold Config.targetDir
  rw [hroot]
  exact (Loc.spells_path (Tree.isPiece_of_get? hdir)).child ⟨by decide, by decide⟩

include hvalid

theorem artifactPath_spells :
    c.artifactPath.Spells (root ++ [("target" : Name)] ++ [(c.name : Name)]) :=
  (targetDir_spells hroot hdir).child hvalid.name_isEntry.toIsPiece

theorem archivePath_spells :
    c.archivePath.Spells (root ++ [("target" : Name)] ++ [(c.name ++ ".zip" : Name)]) :=
  (targetDir_spells hroot hdir).child hvalid.archiveName_isEntry.toIsPiece

end Places

/-- The archive and the artifact are different places. -/
theorem archive_ne_artifact (root : Loc) (c : Config) :
    root ++ [("target" : Name)] ++ [(c.name ++ ".zip" : Name)] ≠
      root ++ [("target" : Name)] ++ [(c.name : Name)] := by
  have hlen : (".zip" : Bytes).length = 4 := by decide
  intro h
  have hname := congrArg List.length (List.singleton_inj.mp (List.append_cancel_left h))
  rw [List.length_append] at hname
  omega

section Views

variable (hvalid : c.Valid) (hroot : c.root = root.path) (hdir : t.get? root = some .dir)
  (hnone : t.get? (root ++ [("target" : Name)]) = none)
  (h : Stages cwd c report summary t made archived joined marked t')

include hvalid hroot hdir hnone h

/-- Until the archive is removed there are three new things: the target directory, the archive, and
the artifact. -/
theorem Stages.get?_marked :
    ∃ entries : List Zip.Entry, summary.entries = entries.length ∧
      archived.get? (root ++ [("target" : Name)] ++ [(c.name ++ ".zip" : Name)]) =
        some (.file (Zip.encode entries) Tree.newFileMode) ∧
      ∀ k, marked.get? k =
        if k = root ++ [("target" : Name)] ++ [(c.name : Name)] then
          some (.file (Bytes.ofString c.shebang ++ Zip.encode entries) artifactMode)
        else if k = root ++ [("target" : Name)] ++ [(c.name ++ ".zip" : Name)] then
          some (.file (Zip.encode entries) Tree.newFileMode)
        else if k = root ++ [("target" : Name)] then some .dir
        else t.get? k := by
  have hartifact := artifactPath_spells hvalid hroot hdir
  have harchive := archivePath_spells hvalid hroot hdir
  have hplaces := archive_ne_artifact root c
  have hempty : ∀ n, t.get? (root ++ [("target" : Name)] ++ [n]) = none := fun n =>
    Tree.get?_eq_none_of_isPrefix hnone (List.prefix_append (root ++ [("target" : Name)]) [n])
  have hbelow : ∀ n, root ++ [("target" : Name)] ++ [n] ≠ root ++ [("target" : Name)] := by simp
  have hmade := Tree.makeDirAll_spelled (targetDir_spells hroot hdir)
    (Name.isEntry_of_valid (by decide)) hdir hnone h.makes
  obtain ⟨entries, hlen, harchived⟩ := writeArchive_spelled harchive hvalid.archiveName_isEntry
    (by rw [hmade, if_pos rfl]) (by rw [hmade, if_neg (hbelow _), hempty]) h.archives
  have hzip : archived.get? (root ++ [("target" : Name)] ++ [(c.name ++ ".zip" : Name)]) =
      some (.file (Zip.encode entries) Tree.newFileMode) := by
    rw [harchived, if_pos rfl]
  have hjoined := writeArtifact_spelled hartifact hvalid.name_isEntry
    (by rw [harchived, if_neg (hbelow _).symm, hmade, if_pos rfl])
    (by rw [harchived, if_neg hplaces.symm, hmade, if_neg (hbelow _), hempty])
    harchive hzip h.joins
  have hmarked := Tree.setMode_spelled hartifact (by rw [hjoined, if_pos rfl]) h.marks
  refine ⟨entries, hlen, hzip, fun k => ?_⟩
  rw [hmarked, hjoined, harchived, hmade]
  by_cases hk : k = root ++ [("target" : Name)] ++ [(c.name : Name)]
  · rw [if_pos hk, if_pos hk]
  · rw [if_neg hk, if_neg hk, if_neg hk]

/-- What the stages of a package leave, where nothing was in the way of the target directory. -/
theorem Stages.get? :
    ∃ entries : List Zip.Entry, summary.entries = entries.length ∧
      archived.get? (root ++ [("target" : Name)] ++ [(c.name ++ ".zip" : Name)]) =
        some (.file (Zip.encode entries) Tree.newFileMode) ∧
      ∀ k, t'.get? k =
        if k = root ++ [("target" : Name)] then some .dir
        else if k = root ++ [("target" : Name)] ++ [(c.name : Name)] then
          some (.file (Bytes.ofString c.shebang ++ Zip.encode entries) artifactMode)
        else t.get? k := by
  obtain ⟨entries, hlen, hzip, hmarked⟩ := h.get?_marked hvalid hroot hdir hnone
  have hplaces := archive_ne_artifact root c
  have hremoved := removeFile_spelled (archivePath_spells hvalid hroot hdir)
    (by rw [hmarked, if_neg hplaces, if_pos rfl]) h.removes
  refine ⟨entries, hlen, hzip, fun k => ?_⟩
  rw [hremoved, hmarked]
  by_cases hbehind : root ++ [("target" : Name)] ++ [(c.name ++ ".zip" : Name)] <+: k
  · -- what is at or below the place of the archive is gone, and was not there before
    have htarget : k ≠ root ++ [("target" : Name)] := by
      rintro rfl
      simpa using hbehind.length_le
    have hartifact : k ≠ root ++ [("target" : Name)] ++ [(c.name : Name)] := by
      rintro rfl
      exact hplaces (hbehind.eq_of_length (by simp))
    have hbefore : t.get? k = none :=
      Tree.get?_eq_none_of_isPrefix hnone (((List.prefix_append _ _).trans hbehind))
    rw [if_pos hbehind, if_neg htarget, if_neg hartifact, hbefore]
  · have harchive : k ≠ root ++ [("target" : Name)] ++ [(c.name ++ ".zip" : Name)] :=
      fun he => hbehind (he ▸ List.prefix_rfl)
    rw [if_neg hbehind, if_neg harchive]
    by_cases hartifact : k = root ++ [("target" : Name)] ++ [(c.name : Name)]
    · rw [if_pos hartifact, if_pos hartifact, if_neg (by simp [hartifact])]
    · rw [if_neg hartifact, if_neg hartifact]

end Views

/-- The line of an artifact ends at its first line end. -/
theorem shebang_eq (c : Config) : Bytes.ofString c.shebang =
    Bytes.ofString ("#!" ++ c.python) ++ [Bytes.newline] := by
  unfold Config.shebang
  rw [Bytes.ofString_append]
  rfl

theorem newline_not_mem_shebang (hvalid : c.Valid) :
    Bytes.newline ∉ Bytes.ofString ("#!" ++ c.python) := by
  intro h
  have hmem := Bytes.newline_mem_ofString h
  rw [String.toList_append, List.mem_append] at hmem
  exact hmem.elim (by decide) hvalid.no_newline

/-- The stages leave an artifact, and the report is about it. -/
theorem Stages.artifact_of_get? (hvalid : c.Valid) (hroot : c.root = root.path)
    (hdir : t.get? root = some .dir) (hnone : t.get? (root ++ [("target" : Name)]) = none)
    (hview : ∀ k, t'.get? k =
      if k = root ++ [("target" : Name)] then some .dir
      else if k = root ++ [("target" : Name)] ++ [(c.name : Name)] then
        some (.file (Bytes.ofString c.shebang ++ content) artifactMode)
      else t.get? k)
    (h : Stages cwd c report summary t made archived joined marked t') :
    Artifact t' root c report content := by
  have hspell := artifactPath_spells hvalid hroot hdir
  have hfile : t'.get? (root ++ [("target" : Name)] ++ [(c.name : Name)]) =
      some (.file (Bytes.ofString c.shebang ++ content) artifactMode) := by
    rw [hview, if_neg (by simp), if_pos rfl]
  have hbelow {rest : List Name} (hnil : rest ≠ []) (hname : rest ≠ [(c.name : Name)]) :
      t'.get? (root ++ ("target" : Name) :: rest) = none := by
    rw [hview, if_neg (by simpa using hnil), if_neg (by simpa using hname)]
    exact Tree.get?_eq_none_of_isPrefix hnone ⟨rest, by simp⟩
  exact
    { target_isDir := by rw [hview, if_pos rfl]
      alone := by
        intro rest
        constructor
        · intro hsome
          by_contra hrest
          rw [not_or] at hrest
          rw [hbelow hrest.1 hrest.2] at hsome
          cases hsome
        · rintro (rfl | rfl)
          · rw [hview, if_pos rfl]
            rfl
          · rw [List.append_cons, hfile]
            rfl
      archive_gone := hbelow (List.cons_ne_nil _ _) (by simp)
      file := by
        rw [List.append_cons, hfile]
        rfl
      first_line := by
        show (Bytes.ofString c.shebang ++ content).takeWhile _ = _
        rw [shebang_eq, List.append_assoc]
        exact Bytes.takeWhile_line (newline_not_mem_shebang hvalid)
      behind_line := by
        show (Bytes.ofString c.shebang ++ content).dropWhile _ = _
        rw [shebang_eq, List.append_assoc]
        exact Bytes.dropWhile_line (newline_not_mem_shebang hvalid)
      artifact_eq := h.artifact
      interpreter_eq := h.interpreter
      size_eq := by
        obtain ⟨node, hstat, hsize⟩ := fileSize_ok h.size
        rw [hsize, Tree.stat_spelled hspell hfile (by simp) hstat]
        rfl
      sha256_eq := by
        obtain ⟨found, hread, hdigest⟩ := Digest.hashFile_ok h.digest
        rw [hdigest, Tree.read_spelled hspell hfile hread]
        rfl }

/-! ## The clean build -/

variable {env : Environment} {dir : Path} {given : Config.Overrides} {m m' : Machine} {host : Host}
  {options : RunOptions} {r : RunReport} {cleaned : Clean.Report}

/-- Cleaning leaves the project directory, without the target directory. -/
theorem get?_of_clean_ok (hdir : t.get? root = some .dir) (hroot : c.root = root.path)
    (h : (Clean.run cwd c false).exec t = (.ok cleaned, t')) :
    t'.get? root = some .dir ∧ t'.get? (root ++ [("target" : Name)]) = none := by
  obtain ⟨-, hview⟩ := Clean.run_ok hdir hroot h
  constructor
  · rw [(hview root).2, hdir]
    rintro q hq hpre
    have hnil : q = [] := by
      have hlen := hpre.length_le
      rw [List.length_append] at hlen
      exact List.eq_nil_of_length_eq_zero (by omega)
    exact hq.elim Clean.IsFixed.ne_nil (fun hc => (Clean.mem_cachesBelow.mp hc).1.ne_nil) hnil
  · exact (hview _).1 ⟨["target"], Or.inl ⟨"target", by decide, rfl⟩, List.prefix_rfl⟩

/-- What the two tasks of a clean build did to the tree. -/
theorem clean_compile_ok (h : executePlan host c options [.clean, .compile] m = (r, m'))
    (hr : r.failed = none) :
    ∃ cleaned report swept,
      (Clean.run host.cwd c options.dryRun).exec m.tree = (.ok cleaned, swept) ∧
      (run host.cwd c).exec swept = (.ok report, m'.tree) ∧
      r.completed = [.clean cleaned, .compile report] := by
  obtain ⟨first, later, m₁, hfirst, hrest, houtcomes⟩ := execute_cons_ok (executePlan_ok h hr)
  obtain ⟨cleaned, hclean, rfl⟩ := perform_clean_ok hfirst
  obtain ⟨second, last, m₂, hsecond, hend, rfl⟩ := execute_cons_ok hrest
  obtain ⟨report, hcompile, rfl⟩ := perform_compile_ok hsecond
  obtain ⟨rfl, rfl⟩ := execute_nil_ok hend
  exact ⟨cleaned, report, m₁.tree, hclean, hcompile, houtcomes⟩

/-- **A clean build leaves the artifact and nothing else in the target directory.** The artifact is
the line that names the interpreter followed by the archive as it was written, and the report tells
of both. Outside the target directory everything is as cleaning left it. -/
theorem clean_compile_leaves_artifact (hload : Config.load m.tree cwd env dir given = .ok c)
    (hdry : options.dryRun = false)
    (h : executePlan host c options [.clean, .compile] m = (r, m')) (hr : r.failed = none) :
    ∃ root cleaned swept made archived report summary entries,
      c.root = root.path ∧ r.completed = [.clean cleaned, .compile report] ∧
      (Clean.run host.cwd c false).exec m.tree = (.ok cleaned, swept) ∧
      (Tree.makeDirAll host.cwd c.targetDir).exec swept = (.ok ⟨⟩, made) ∧
      (writeArchive host.cwd c.sourceDir c.archivePath c.targetDir).exec made =
        (.ok summary, archived) ∧
      archived.get? (root ++ [("target" : Name), c.name ++ ".zip"]) =
        some (.file (Zip.encode entries) Tree.newFileMode) ∧
      report.entries = entries.length ∧
      Artifact m'.tree root c report (Zip.encode entries) ∧
      ∀ k, ¬ root ++ [("target" : Name)] <+: k → m'.tree.get? k = swept.get? k := by
  obtain ⟨hvalid, root, node, hget, hlink, hroot⟩ := Config.load_ok hload
  obtain ⟨cleaned, report, swept, hclean, hcompile, houtcomes⟩ := clean_compile_ok h hr
  rw [hdry] at hclean
  obtain rfl : node = .dir := Clean.isDir_of_run_ok hget hlink hroot hclean
  obtain ⟨hdir, hnone⟩ := get?_of_clean_ok hget hroot hclean
  obtain ⟨made, archived, joined, marked, summary, hstages⟩ := run_ok hcompile
  obtain ⟨entries, hlen, hzip, hview⟩ := hstages.get? hvalid hroot hdir hnone
  have hartifact := hstages.artifact_of_get? hvalid hroot hdir hnone hview
  refine ⟨root, cleaned, swept, made, archived, report, summary, entries, hroot, houtcomes, hclean,
    hstages.makes, hstages.archives, ?_, hstages.entries.trans hlen, hartifact, fun k hk => ?_⟩
  · rw [List.append_cons, hzip]
  · rw [hview, if_neg, if_neg]
    · rintro rfl
      exact hk (List.prefix_append _ _)
    · rintro rfl
      exact hk List.prefix_rfl

/-- A machine with a project whose target directory is a link to an older build. -/
def stale : Machine where
  tree := Tree.placeAll [] [.link ⟨"/p/target"⟩ ⟨"/out"⟩, .file ⟨"/out/templates"⟩ [1] 0o644,
    .file ⟨"/p/src/__main__.py"⟩ [2] 0o644, .file ⟨"/lib/a.py"⟩ [3] 0o755,
    .link ⟨"/p/src/lib"⟩ ⟨"../../lib"⟩] Tree.empty
  log := []

/-- A host on which no program can be launched. -/
def bareHost : Host := ⟨[], [], fun _ _ _ => .error .notFound⟩

set_option maxRecDepth 100000 in
theorem clean_compile_leaves_artifact_stale :
    ∃ c r m', Config.load stale.tree [] [] ⟨"/p"⟩ .none = .ok c ∧
      executePlan bareHost c ⟨false, []⟩ [.clean, .compile] stale = (r, m') ∧ r.failed = none ∧
      ∃ root cleaned swept made archived report summary entries,
        c.root = root.path ∧ r.completed = [.clean cleaned, .compile report] ∧
        (Clean.run bareHost.cwd c false).exec stale.tree = (.ok cleaned, swept) ∧
        (Tree.makeDirAll bareHost.cwd c.targetDir).exec swept = (.ok ⟨⟩, made) ∧
        (writeArchive bareHost.cwd c.sourceDir c.archivePath c.targetDir).exec made =
          (.ok summary, archived) ∧
        archived.get? (root ++ [("target" : Name), c.name ++ ".zip"]) =
          some (.file (Zip.encode entries) Tree.newFileMode) ∧
        report.entries = entries.length ∧
        Artifact m'.tree root c report (Zip.encode entries) ∧
        ∀ k, ¬ root ++ [("target" : Name)] <+: k → m'.tree.get? k = swept.get? k := by
  have hload : Config.load stale.tree [] [] ⟨"/p"⟩ .none = .ok (Config.withRoot ⟨"/p"⟩) := by
    decide +kernel
  have hfailed : (executePlan bareHost (Config.withRoot ⟨"/p"⟩) ⟨false, []⟩ [.clean, .compile]
      stale).1.failed = none := by
    decide +kernel
  generalize hafter : executePlan bareHost (Config.withRoot ⟨"/p"⟩) ⟨false, []⟩
    [.clean, .compile] stale = after at hfailed
  obtain ⟨r, m'⟩ := after
  have hbuild := clean_compile_leaves_artifact hload rfl hafter hfailed
  exact ⟨Config.withRoot ⟨"/p"⟩, r, m', hload, hafter, hfailed, hbuild⟩

end Zipship.Package
