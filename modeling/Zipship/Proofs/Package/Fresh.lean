import Zipship.Proofs.Package.Artifact

/-!
# Packaging where nothing is in the way

In a project without a target directory, packaging is held up by its source alone. The directory can
be made, the archive in it can be created, and then the filling of the archive decides: packaging
fails with what ends that early (`run_of_unfilled`), and if nothing does it succeeds
(`run_of_filled`).
-/

namespace Zipship.Package

variable {t : Tree} {cwd root l z : Loc} {c : Config} {p source exclude archive artifact : Path}
  {n : Name} {node : Node} {content : Bytes} {mode : Nat} {line : String}

/-! ## The steps -/

/-- Writing an archive where nothing is: the filling alone decides whether that fails. -/
theorem exec_writeArchive {opened : Tree} {w : Walk} {filled : Bytes × Option Error}
    (hc : Tree.checkPath p = .ok ⟨⟩) (hp : p.Spells (l ++ [n])) (hn : n.valid = true)
    (hdir : t.get? l = some .dir)
    (hnone : t.get? (l ++ [n]) = none)
    (hopened : t.put (l ++ [n]) (.file [] Tree.newFileMode) = opened)
    (hwalk : archiveWalk opened cwd source p exclude = w)
    (hfill : fill source p (l ++ [n]) w.fault .empty w.visits = filled) :
    (writeArchive cwd source p exclude).exec t =
      (match filled.2 with
        | some e => .error e
        | none => .ok (summarize w.visits),
      opened.put (l ++ [n]) (.file filled.1 Tree.newFileMode)) := by
  have hcreate : Tree.create cwd p t = .ok (l ++ [n], opened) :=
    hopened ▸ Tree.create_fresh hc hp hn hdir hnone
  have hget : opened.get? (l ++ [n]) = some (.file [] Tree.newFileMode) := by
    rw [← hopened, Tree.get?_put (Tree.admits_file hdir hn (by simp [hnone])), if_pos rfl]
  exact exec_writeArchive_created hcreate hwalk hfill (Tree.write_of_file hget)

/-- An artifact can be written where nothing is, from an archive that is there. -/
theorem exists_writeArtifact (hc : Tree.checkPath artifact = .ok ⟨⟩)
    (hp : artifact.Spells (l ++ [n])) (hn : n.valid = true) (hdir : t.get? l = some .dir)
    (hnone : t.get? (l ++ [n]) = none) (hcz : Tree.checkPath archive = .ok ⟨⟩)
    (hz : archive.Spells z) (hget : t.get? z = some (.file content mode)) :
    ∃ t', (writeArtifact cwd line archive artifact).exec t = (.ok ⟨⟩, t') := by
  have hview (k : Loc) : (t.put (l ++ [n]) (.file [] Tree.newFileMode)).get? k =
      if k = l ++ [n] then some (.file [] Tree.newFileMode) else t.get? k :=
    Tree.get?_put (Tree.admits_file hdir hn (by simp [hnone]))
  have hne : z ≠ l ++ [n] := by
    rintro rfl
    rw [hnone] at hget
    cases hget
  have hcreate : (Edit.onError (Edit.step (Tree.create cwd artifact)) (Error.io artifact)).exec t =
      (.ok (l ++ [n]), t.put (l ++ [n]) (.file [] Tree.newFileMode)) :=
    Edit.exec_onError_of_ok (Edit.exec_step_of_ok (Tree.create_fresh hc hp hn hdir hnone))
  have hread : (t.put (l ++ [n]) (.file [] Tree.newFileMode)).read cwd archive = .ok content :=
    Tree.read_of_stat (Tree.stat_of_spells hcz hz (by rw [hview, if_neg hne, hget]) (by simp))
  unfold writeArtifact
  rw [Edit.exec_bind_of_ok hcreate, Edit.exec_bind, Edit.exec_inspect, hread]
  exact ⟨_, Edit.exec_onError_of_ok (Edit.exec_step_of_ok
    (Tree.write_of_file (by rw [hview, if_pos rfl])))⟩

theorem exec_removeFile (hc : Tree.checkPath p = .ok ⟨⟩) (hp : p.Spells (l ++ [n]))
    (hget : t.get? (l ++ [n]) = some (.file content mode)) :
    (removeFile cwd p).exec t = (.ok ⟨⟩, t.erase (l ++ [n])) := by
  obtain ⟨hdir, hn⟩ := Tree.parent_of_get? hget
  unfold removeFile
  rw [Edit.exec_bind_of_ok Edit.exec_get, Tree.locate_spelled hp hc hdir hn,
    if_pos (by simp [hget])]
  exact Edit.exec_onError_of_ok
    (Edit.exec_step_of_ok (Tree.removeFile_of_spells hc hp hget (by simp)))

/-! ## A project without a target directory -/

/-- The operating system accepts the names and the paths of the build output. -/
structure Fits (c : Config) : Prop where
  noNul : '\x00' ∉ c.name.toList
  nameSize : (c.name ++ ".zip" : Bytes).length ≤ Tree.maxNameBytes
  pathSize : c.archivePath.bytes.length ≤ Tree.maxPathBytes

namespace Fits

variable (h : Fits c) (hvalid : c.Valid)

include h

theorem nul_notMem_name : 0 ∉ (c.name : Bytes) := fun hnul =>
  h.noNul ((Bytes.mem_ofString_iff (c := '\x00') (by decide)).mp hnul)

include hvalid

theorem name_valid : Name.valid c.name = true := by
  have hsize := h.nameSize
  rw [List.length_append] at hsize
  exact Name.valid_iff.mpr ⟨hvalid.name_isEntry, h.nul_notMem_name, by omega⟩

theorem archiveName_valid : Name.valid (c.name ++ ".zip") = true := by
  refine Name.valid_iff.mpr ⟨hvalid.archiveName_isEntry, ?_, h.nameSize⟩
  rw [List.mem_append, not_or]
  exact ⟨h.nul_notMem_name, by decide⟩

variable (htarget : Tree.checkPath c.targetDir = .ok ⟨⟩)

include htarget

theorem checkPath_archivePath : Tree.checkPath c.archivePath = .ok ⟨⟩ :=
  Tree.checkPath_child htarget hvalid.archiveName_isEntry.toIsPiece
    (Name.valid_iff.mp (h.archiveName_valid hvalid)).2.1 h.pathSize

theorem checkPath_artifactPath : Tree.checkPath c.artifactPath = .ok ⟨⟩ := by
  refine Tree.checkPath_child htarget hvalid.name_isEntry.toIsPiece h.nul_notMem_name ?_
  have hsize := h.pathSize
  unfold Config.archivePath at hsize
  rw [Path.child_eq hvalid.archiveName_isEntry.toIsPiece] at hsize
  rw [Path.child_eq hvalid.name_isEntry.toIsPiece]
  simp only [List.length_append] at hsize ⊢
  omega

end Fits

/-- What the walk of the source sees in a project without a target directory: the same with that
directory, in which there is an empty archive. -/
def underway (t : Tree) (root : Loc) (c : Config) : Tree :=
  (t.put (root ++ [("target" : Name)]) .dir).put
    (root ++ [("target" : Name)] ++ [(c.name ++ ".zip" : Name)]) (.file [] Tree.newFileMode)

/-- The walk of the source of a project without a target directory. -/
def sourceWalk (t : Tree) (cwd root : Loc) (c : Config) : Walk :=
  archiveWalk (underway t root c) cwd c.sourceDir c.archivePath c.targetDir

/-- The archive of a project without a target directory, and what ends it early. -/
def sourceFill (t : Tree) (cwd root : Loc) (c : Config) : Bytes × Option Error :=
  fill c.sourceDir c.archivePath (root ++ [("target" : Name)] ++ [(c.name ++ ".zip" : Name)])
    (sourceWalk t cwd root c).fault .empty (sourceWalk t cwd root c).visits

theorem get?_made (hdir : t.get? root = some .dir) (k : Loc) :
    (t.put (root ++ [("target" : Name)]) .dir).get? k =
      if k = root ++ [("target" : Name)] then some .dir else t.get? k :=
  Tree.get?_put (Tree.admits_child hdir (by decide) rfl fun _ => rfl)

section Rest

variable (hvalid : c.Valid) (hfits : Fits c) (hroot : c.root = root.path)
  (htarget : Tree.checkPath c.targetDir = .ok ⟨⟩)

include hvalid hfits hroot htarget

/-- When the archive is there and nothing else, all that is left to do can be done. -/
theorem exists_artifact (cwd : Loc) (hget : t.get? (root ++ [("target" : Name)]) = some .dir)
    (hzip : t.get? (root ++ [("target" : Name)] ++ [(c.name ++ ".zip" : Name)]) =
      some (.file content mode))
    (hnone : t.get? (root ++ [("target" : Name)] ++ [(c.name : Name)]) = none) :
    ∃ joined marked t' content,
      (writeArtifact cwd c.shebang c.archivePath c.artifactPath).exec t = (.ok ⟨⟩, joined) ∧
      Tree.setMode cwd c.artifactPath artifactMode joined = .ok (⟨⟩, marked) ∧
      (removeFile cwd c.archivePath).exec marked = (.ok ⟨⟩, t') ∧
      t'.stat cwd c.artifactPath = .ok (.file content artifactMode) := by
  have hdir := Tree.get?_eq_dir_of_append hget (by simp)
  have hartifact := artifactPath_spells hvalid hroot hdir
  have harchive := archivePath_spells hvalid hroot hdir
  have hplaces := archive_ne_artifact root c
  have hcheck := hfits.checkPath_artifactPath hvalid htarget
  have hcheckZip := hfits.checkPath_archivePath hvalid htarget
  obtain ⟨joined, hjoin⟩ :
      ∃ t', (writeArtifact cwd c.shebang c.archivePath c.artifactPath).exec t = (.ok ⟨⟩, t') :=
    exists_writeArtifact hcheck hartifact (hfits.name_valid hvalid) hget hnone hcheckZip harchive
      hzip
  have hjoined := writeArtifact_spelled hartifact hvalid.name_isEntry hget hnone harchive hzip hjoin
  have hfile : joined.get? (root ++ [("target" : Name)] ++ [(c.name : Name)]) =
      some (.file (Bytes.ofString c.shebang ++ content) Tree.newFileMode) := by
    rw [hjoined, if_pos rfl]
  have hmark : Tree.setMode cwd c.artifactPath artifactMode joined = .ok (⟨⟩, _) :=
    Tree.setMode_of_spells hcheck hartifact hfile
  have hmarked := Tree.setMode_spelled hartifact hfile hmark
  have hremove : (removeFile cwd c.archivePath).exec _ = (.ok ⟨⟩, _) :=
    exec_removeFile hcheckZip harchive
      (by rw [hmarked, if_neg hplaces, hjoined, if_neg hplaces, hzip])
  refine ⟨joined, _, _, Bytes.ofString c.shebang ++ content, hjoin, hmark, hremove,
    Tree.stat_of_spells hcheck hartifact ?_ (by simp)⟩
  have hapart : ¬ root ++ [("target" : Name)] ++ [(c.name ++ ".zip" : Name)] <+:
      root ++ [("target" : Name)] ++ [(c.name : Name)] :=
    fun hpre => hplaces (hpre.eq_of_length (by simp))
  rw [Tree.get?_erase (by simp), if_neg hapart, hmarked, if_pos rfl]

end Rest

/-- Where the source is a directory, the target directory is made. -/
theorem exec_before_walk (hroot : c.root = root.path) (hdir : t.get? root = some .dir)
    (hnone : t.get? (root ++ [("target" : Name)]) = none)
    (htarget : Tree.checkPath c.targetDir = .ok ⟨⟩)
    (hsource : t.stat cwd c.sourceDir = .ok .dir) :
    (Edit.inspect (checkSource cwd c.sourceDir)).exec t = (.ok ⟨⟩, t) ∧
      (Edit.onError (Tree.makeDirAll cwd c.targetDir) (Error.io c.targetDir)).exec t =
        (.ok ⟨⟩, t.put (root ++ [("target" : Name)]) .dir) := by
  constructor
  · rw [Edit.exec_inspect, checkSource, hsource]
  · exact Edit.exec_onError_of_ok (Tree.makeDirAll_fresh htarget (targetDir_spells hroot hdir)
      (by decide) hdir hnone)

section Run

variable (hvalid : c.Valid) (hfits : Fits c) (hdir : t.get? root = some .dir)
  (hnone : t.get? (root ++ [("target" : Name)]) = none)

include hvalid hfits hdir hnone

theorem get?_underway (k : Loc) : (underway t root c).get? k =
    if k = root ++ [("target" : Name)] ++ [(c.name ++ ".zip" : Name)] then
      some (.file [] Tree.newFileMode)
    else if k = root ++ [("target" : Name)] then some .dir else t.get? k := by
  have hempty : t.get? (root ++ [("target" : Name)] ++ [(c.name ++ ".zip" : Name)]) = none :=
    Tree.get?_eq_none_of_isPrefix hnone (List.prefix_append _ _)
  unfold underway
  rw [Tree.get?_put (Tree.admits_file (by rw [get?_made hdir, if_pos rfl])
    (hfits.archiveName_valid hvalid) (by rw [get?_made hdir, if_neg (by simp), hempty]; simp)),
    get?_made hdir]

/-- What is found before the walk is found by it. -/
theorem stat_underway (h : t.stat cwd p = .ok node) :
    (underway t root c).stat cwd p = .ok node := by
  have hsub (l : Loc) (m : Node) (hget : t.get? l = some m) :
      (underway t root c).get? l = some m := by
    have hfree {l' : Loc} (hl' : root ++ [("target" : Name)] <+: l') : l ≠ l' := by
      rintro rfl
      rw [Tree.get?_eq_none_of_isPrefix hnone hl'] at hget
      cases hget
    rw [get?_underway hvalid hfits hdir hnone, if_neg (hfree (List.prefix_append _ _)),
      if_neg (hfree List.prefix_rfl), hget]
  obtain ⟨pos, hr, hget⟩ := Tree.stat_eq_ok.mp h
  exact Tree.stat_eq_ok.mpr ⟨pos, Tree.resolve_of_subset hsub hr, hsub _ _ hget⟩

variable (hroot : c.root = root.path) (htarget : Tree.checkPath c.targetDir = .ok ⟨⟩)

include hroot htarget

/-- The archive is written, whether its filling comes to an end or not. -/
theorem exec_writeArchive_made (cwd : Loc) :
    (writeArchive cwd c.sourceDir c.archivePath c.targetDir).exec
        (t.put (root ++ [("target" : Name)]) .dir) =
      (match (sourceFill t cwd root c).2 with
        | some e => .error e
        | none => .ok (summarize (sourceWalk t cwd root c).visits),
      (underway t root c).put (root ++ [("target" : Name)] ++ [(c.name ++ ".zip" : Name)])
        (.file (sourceFill t cwd root c).1 Tree.newFileMode)) := by
  refine exec_writeArchive (hfits.checkPath_archivePath hvalid htarget)
    (archivePath_spells hvalid hroot hdir) (hfits.archiveName_valid hvalid) ?_ ?_ rfl rfl rfl
  · rw [get?_made hdir, if_pos rfl]
  · rw [get?_made hdir, if_neg (by simp)]
    exact Tree.get?_eq_none_of_isPrefix hnone (List.prefix_append _ _)

/-- If the filling ends early, packaging fails with what ended it. -/
theorem run_of_unfilled {e : Error} (hsource : t.stat cwd c.sourceDir = .ok .dir)
    (he : (sourceFill t cwd root c).2 = some e) : ((run cwd c).exec t).1 = .error e := by
  obtain ⟨hcheck, hmake⟩ := exec_before_walk hroot hdir hnone htarget hsource
  have harchive := exec_writeArchive_made hvalid hfits hdir hnone hroot htarget cwd
  rw [he] at harchive
  unfold run
  rw [Edit.exec_bind_of_ok hcheck, Edit.exec_bind_of_ok hmake, Edit.exec_bind_of_error harchive]

/-- **If the filling comes to its end, packaging succeeds.** -/
theorem run_of_filled (hsource : t.stat cwd c.sourceDir = .ok .dir)
    (hok : (sourceFill t cwd root c).2 = none) :
    ∃ report, ((run cwd c).exec t).1 = .ok report := by
  obtain ⟨hcheck, hmake⟩ := exec_before_walk hroot hdir hnone htarget hsource
  have harchive := exec_writeArchive_made hvalid hfits hdir hnone hroot htarget cwd
  rw [hok] at harchive
  generalize hzip : (sourceFill t cwd root c).1 = zip at harchive
  generalize harchived : (underway t root c).put _ _ = archived at harchive
  have hplaces := (archive_ne_artifact root c).symm
  have hunder := fun k => get?_underway hvalid hfits hdir hnone k
  have hview (k : Loc) : archived.get? k =
      if k = root ++ [("target" : Name)] ++ [(c.name ++ ".zip" : Name)] then
        some (.file zip Tree.newFileMode)
      else (underway t root c).get? k := by
    rw [← harchived]
    exact Tree.get?_put (Tree.admits_of_file (by rw [hunder, if_pos rfl]))
  obtain ⟨joined, marked, t', content, hjoin, hmark, hremove, hstat⟩ :=
    exists_artifact hvalid hfits hroot htarget cwd
      (by rw [hview, if_neg (by simp), hunder, if_neg (by simp), if_pos rfl])
      (by rw [hview, if_pos rfl])
      (by
        rw [hview, if_neg hplaces, hunder, if_neg hplaces, if_neg (by simp)]
        exact Tree.get?_eq_none_of_isPrefix hnone (List.prefix_append _ _))
  unfold run
  rw [Edit.exec_bind_of_ok hcheck, Edit.exec_bind_of_ok hmake, Edit.exec_bind_of_ok harchive,
    Edit.exec_bind_of_ok hjoin,
    Edit.exec_bind_of_ok (Edit.exec_onError_of_ok (Edit.exec_step_of_ok hmark)),
    Edit.exec_bind_of_ok hremove, Edit.exec_bind, Edit.exec_inspect, fileSize, hstat]
  simp only [Except.map, Except.mapError]
  rw [Edit.exec_bind, Edit.exec_inspect, Digest.hashFile, Tree.read_of_stat hstat]
  exact ⟨_, rfl⟩

end Run

end Zipship.Package
