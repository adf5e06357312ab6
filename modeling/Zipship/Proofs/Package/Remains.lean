import Zipship.Proofs.Package.Barrier
import Zipship.Proofs.Package.Content
import Zipship.Proofs.Tree.Beside
import Zipship.Proofs.Tree.Made

/-!
# What a failed package leaves

Packaging fails in one of four stages (`Failure`, `run_error`): the source is no directory, the
target directory cannot be made, the archive cannot be completed, or the artifact cannot. Each stage
leaves what the ones before it made (`run_error_remains`):

* An error that tells of the source leaves everything as it was (`Failure.eq_of_source`).
* Until the archive is complete, nothing is new but directories on the way to the target directory,
  and nothing that was there is changed but the content of the archive (`Failure.begun`).
* Then packaging fails for the artifact only, and only the artifact and the archive are changed
  (`Archives.failed`).

An error that tells of the artifact tells of the source as well if both are spelled the same, and
then there is an archive left (`source_at_artifact_leaves_archive`).
-/

namespace Zipship.Package

variable {t t' made archived joined marked opened : Tree} {cwd place l : Loc} {c : Config}
  {p source dest exclude archive artifact : Path} {e : Error} {n : Name} {node : Node}
  {line : String} {summary : Summary} {pos : Tree.Position} {fault : Walk.Fault}

/-! ## Stages of failing -/

/-- What packaging does when the archive is complete. -/
def finish (cwd : Loc) (c : Config) (summary : Summary) : Edit Error Report := do
  let artifact := c.artifactPath
  writeArtifact cwd c.shebang c.archivePath artifact
  Edit.onError (Edit.step (Tree.setMode cwd artifact artifactMode)) (.io artifact)
  removeFile cwd c.archivePath
  let size ← Edit.inspect (fileSize cwd artifact)
  let sha256 ← Edit.inspect fun t => (Digest.hashFile t cwd artifact).mapError (.hash artifact)
  return ⟨artifact, c.python, summary.entries, size, sha256, summary.hasEntryPoint⟩

theorem run_eq (cwd : Loc) (c : Config) : run cwd c = (do
    Edit.inspect (checkSource cwd c.sourceDir)
    Edit.onError (Tree.makeDirAll cwd c.targetDir) (.io c.targetDir)
    let summary ← writeArchive cwd c.sourceDir c.archivePath c.targetDir
    finish cwd c summary) := rfl

/-- The trees that packaging leaves until the archive is complete: the target directory was made,
and the source was archived into it. -/
structure Archives (t : Tree) (cwd : Loc) (c : Config) (made : Tree) (summary : Summary)
    (archived : Tree) : Prop where
  source_isDir : t.stat cwd c.sourceDir = .ok .dir
  makes : (Tree.makeDirAll cwd c.targetDir).exec t = (.ok ⟨⟩, made)
  archives : (writeArchive cwd c.sourceDir c.archivePath c.targetDir).exec made =
    (.ok summary, archived)

/-- Packaging comes so far that the archive is complete. -/
def Archived (t : Tree) (cwd : Loc) (c : Config) : Prop :=
  ∃ made summary archived, Archives t cwd c made summary archived

/-- The ways packaging can fail, with what it leaves. -/
inductive Failure (t : Tree) (cwd : Loc) (c : Config) : Error → Tree → Prop
  | source {e : Error} (h : checkSource cwd c.sourceDir t = .error e) : Failure t cwd c e t
  | making {cause : OsError} {made : Tree} (hsource : t.stat cwd c.sourceDir = .ok .dir)
      (h : (Tree.makeDirAll cwd c.targetDir).exec t = (.error cause, made)) :
      Failure t cwd c (.io c.targetDir cause) made
  | archiving {e : Error} {made t' : Tree} (hsource : t.stat cwd c.sourceDir = .ok .dir)
      (hmake : (Tree.makeDirAll cwd c.targetDir).exec t = (.ok ⟨⟩, made))
      (h : (writeArchive cwd c.sourceDir c.archivePath c.targetDir).exec made = (.error e, t')) :
      Failure t cwd c e t'
  | finishing {e : Error} {made archived t' : Tree} {summary : Summary}
      (harchived : Archives t cwd c made summary archived)
      (h : (finish cwd c summary).exec archived = (.error e, t')) : Failure t cwd c e t'

theorem run_error (h : (run cwd c).exec t = (.error e, t')) : Failure t cwd c e t' := by
  rw [run_eq] at h
  obtain hsource | ⟨⟨⟩, t₀, hsource, h₁⟩ := Edit.exec_bind_error h
  · obtain ⟨hsource, rfl⟩ := Edit.exec_inspect_error hsource
    exact .source hsource
  obtain ⟨hsource, rfl⟩ := Edit.exec_inspect_ok hsource
  have hisDir := checkSource_ok hsource
  obtain hfail | ⟨⟨⟩, made, hmake, h₂⟩ := Edit.exec_bind_error h₁
  · obtain ⟨cause, hmake, rfl⟩ := Edit.exec_onError_error hfail
    exact .making hisDir hmake
  have hmade := Edit.exec_onError_ok hmake
  obtain harchive | ⟨summary, archived, harchive, h₃⟩ := Edit.exec_bind_error h₂
  · exact .archiving hisDir hmade harchive
  · exact .finishing ⟨hisDir, hmade, harchive⟩ h₃

/-! ## Failing to archive -/

/-- An archive that is not completed was not created, or it holds something that was written to it.
-/
theorem writeArchive_error (h : (writeArchive cwd source dest exclude).exec t = (.error e, t')) :
    (∃ cause, e = .io dest cause ∧ t' = t) ∨
      ∃ place opened, Tree.create cwd dest t = .ok (place, opened) ∧
        (t' = opened ∨ ∃ content, Tree.write place content opened = .ok (⟨⟩, t')) ∧
        ((∃ fault, (archiveWalk opened cwd source dest exclude).fault = some fault ∧
            e = faultError source fault) ∨
          (∃ p cause, e = .archive p cause) ∨ (∃ cause, e = .io dest cause) ∨
          ∃ v ∈ (archiveWalk opened cwd source dest exclude).visits,
            e = .io (source.descend v.names) .tooLarge) := by
  unfold writeArchive at h
  obtain hfail | ⟨place, opened, hcreate, h₁⟩ := Edit.exec_bind_error h
  · obtain ⟨cause, hstep, rfl⟩ := Edit.exec_onError_error hfail
    exact Or.inl ⟨cause, rfl, (Edit.exec_step_error hstep).2⟩
  · refine Or.inr ⟨place, opened, Edit.exec_step_ok (Edit.exec_onError_ok hcreate), ?_⟩
    rw [Edit.exec_bind_of_ok Edit.exec_get] at h₁
    obtain hfail | ⟨⟨⟩, written, hwrite, h₂⟩ := Edit.exec_bind_error h₁
    · obtain ⟨cause, hstep, hwording⟩ := Edit.exec_onError_error hfail
      refine ⟨Or.inl (Edit.exec_step_error hstep).2, ?_⟩
      split at hwording
      · exact Or.inr (Or.inl ⟨_, _, hwording.symm⟩)
      · rename_i fault _ hfault
        exact Or.inl ⟨fault, hfault, hwording.symm⟩
      · exact Or.inr (Or.inr (Or.inl ⟨_, hwording.symm⟩))
    · have hwritten := Edit.exec_step_ok (Edit.exec_onError_ok hwrite)
      cases hfailure : (fill source dest place (archiveWalk opened cwd source dest exclude).fault
          .empty (archiveWalk opened cwd source dest exclude).visits).2 with
      | none =>
        simp only [hfailure] at h₂
        cases h₂
      | some e =>
        simp only [hfailure] at h₂
        cases h₂
        exact ⟨Or.inr ⟨_, hwritten⟩, (fill_eq_some hfailure).imp_right (Or.imp_right Or.inr)⟩

/-- Names lead away from a path. -/
theorem descend_ne_self {names : List Name} (hvalid : ∀ n ∈ names, n.valid = true)
    (hne : names ≠ []) : source.descend names ≠ source := by
  intro hsame
  have hpieces := Path.pieces_descend (p := source) fun n hn =>
    (Name.isEntry_of_valid (hvalid n hn)).toIsPiece
  rw [hsame] at hpieces
  exact hne (List.self_eq_append_right.mp hpieces)

/-- What a walk from `source` fails to open is not the source itself. -/
theorem faultError_ne_source {skip : List Name → Node → Bool} {cause : OsError}
    (h : (Walk.ofSource t cwd source skip).fault = some fault) :
    faultError source fault ≠ .io source cause := by
  intro heq
  cases fault with
  | unreachable | loop => cases heq
  | unopened names found =>
    obtain ⟨earlier, last, -, -, hlast⟩ := Walk.visits_ofSource_of_fault h
    cases hlast with
    | source _ hkind | link _ hkind => exact hkind names found rfl
    | refused _ _ hdue => exact descend_ne_self hdue.valid hdue.ne.symm (Error.io.inj heq).1

/-- What was written to a file that was created: it has its old permission bits, or those of a new
file. -/
def Rewritten (before after : Option Node) : Prop :=
  ∃ content mode, after = some (.file content mode) ∧
    (before = none ∧ mode = Tree.newFileMode ∨ ∃ old, before = some (.file old mode))

theorem Rewritten.not_isDir {before after : Option Node} (h : Rewritten before after) :
    before ≠ some .dir := by
  rintro rfl
  obtain ⟨content, mode, -, ⟨hnone, -⟩ | ⟨old, hfile⟩⟩ := h
  · cases hnone
  · cases hfile

/-- Where a file was created and something written, it is rewritten, unless a device is there. -/
theorem rewritten_of_create (hcreate : Tree.create cwd p t = .ok (place, opened))
    (hwrite : t' = opened ∨ ∃ content, Tree.write place content opened = .ok (⟨⟩, t')) :
    (∃ d, t.get? place = some (.device d) ∧ t'.get? place = some (.device d)) ∨
      Rewritten (t.get? place) (t'.get? place) := by
  obtain ⟨-, ⟨mode, hfile, hbefore⟩ | ⟨d, hdevice, hdevice'⟩⟩ := Tree.create_ok hcreate
  · right
    obtain rfl | ⟨content, hwrite⟩ := hwrite
    · exact ⟨_, mode, hfile, hbefore⟩
    · exact ⟨content, mode, (Tree.write_file hfile hwrite).1, hbefore⟩
  · left
    obtain rfl | ⟨content, hwrite⟩ := hwrite
    · exact ⟨d, hdevice, hdevice'⟩
    · unfold Tree.write at hwrite
      rw [hdevice'] at hwrite
      cases d with
      | null =>
        cases hwrite
        exact ⟨_, hdevice, hdevice'⟩
      | full =>
        simp only at hwrite
        split_ifs at hwrite
        cases hwrite
        exact ⟨_, hdevice, hdevice'⟩

/-- The archive of a project is created in the target directory, if no link leads away from there,
and nothing else is touched by it. -/
theorem archive_placed (hvalid : c.Valid)
    (hlinks : ∀ pos, made.resolve cwd c.targetDir = .ok pos → ∀ target,
      made.get? (pos.loc ++ [(c.name ++ ".zip" : Name)]) ≠ some (.link target))
    (hcreate : Tree.create cwd c.archivePath made = .ok (place, opened))
    (hwrite : t' = opened ∨ ∃ content, Tree.write place content opened = .ok (⟨⟩, t')) :
    ∃ pos, made.resolve cwd c.targetDir = .ok pos ∧ made.get? pos.loc = some .dir ∧
      place = pos.loc ++ [(c.name ++ ".zip" : Name)] ∧
      Tree.Beside made pos.loc [(c.name ++ ".zip" : Name)] t' := by
  obtain ⟨pos, hp, hdir, -⟩ := Tree.create_child_ok c.bytes_targetDir_ne
    c.endsWithSlash_targetDir hvalid.archiveName_isEntry hcreate
  obtain ⟨rfl, hopened⟩ :=
    (Tree.Beside.refl made pos.loc [(c.name ++ ".zip" : Name)]).create hp hdir
      (fun n hn => List.mem_singleton.mp hn ▸ hlinks pos hp) (by simp) hvalid.archiveName_isEntry
      hcreate
  refine ⟨pos, hp, hdir, rfl, ?_⟩
  obtain rfl | ⟨content, hwrite⟩ := hwrite
  · exact hopened
  · exact hopened.write (by simp) hwrite

/-! ## Failing to finish -/

/-- An artifact that is not completed was not created, or not written, or its archive not read. -/
theorem writeArtifact_error
    (h : (writeArtifact cwd line archive artifact).exec t = (.error e, t')) :
    (∃ cause, e = .io artifact cause ∧ t' = t) ∨
      ∃ place, Tree.create cwd artifact t = .ok (place, t') ∧
        ((∃ cause, e = .io artifact cause) ∨ ∃ cause, t'.read cwd archive = .error cause) := by
  unfold writeArtifact at h
  obtain hfail | ⟨place, opened, hcreate, h₁⟩ := Edit.exec_bind_error h
  · obtain ⟨cause, hstep, rfl⟩ := Edit.exec_onError_error hfail
    exact Or.inl ⟨cause, rfl, (Edit.exec_step_error hstep).2⟩
  · have hcreated := Edit.exec_step_ok (Edit.exec_onError_ok hcreate)
    obtain hfail | ⟨content, t₁, hread, h₂⟩ := Edit.exec_bind_error h₁
    · obtain ⟨hread, rfl⟩ := Edit.exec_inspect_error hfail
      obtain ⟨cause, hcause, -⟩ := mapError_eq_error hread
      exact Or.inr ⟨place, hcreated, Or.inr ⟨cause, hcause⟩⟩
    · obtain ⟨-, rfl⟩ := Edit.exec_inspect_ok hread
      obtain ⟨cause, hstep, rfl⟩ := Edit.exec_onError_error h₂
      obtain ⟨-, rfl⟩ := Edit.exec_step_error hstep
      exact Or.inr ⟨place, hcreated, Or.inl ⟨cause, rfl⟩⟩

/-- A file in a directory can be read, unless it has no end. -/
theorem exists_read_child (hc : Tree.checkPath (p.child n) = .ok ⟨⟩) (hn : n.IsPiece)
    (hp : t.resolve cwd p = .ok pos) (hget : t.get? (pos.loc ++ [n]) = some node)
    (hends : node ≠ .device .full) (hleaf : t.IsLeaf (pos.loc ++ [n])) :
    ∃ content, t.read cwd (p.child n) = .ok content := by
  have hstat : t.stat cwd (p.child n) = .ok node :=
    Tree.stat_eq_ok.mpr ⟨_, Tree.resolve_child hc hn hp hget fun target hlink =>
      hleaf.2 target (hlink ▸ hget), hget⟩
  unfold Tree.read
  rw [hstat]
  cases node with
  | dir => exact absurd hget hleaf.1
  | file _ _ | link _ => exact ⟨_, rfl⟩
  | device d =>
    cases d with
    | null => exact ⟨_, rfl⟩
    | full => exact absurd rfl hends

/-- A file in a directory can be removed. -/
theorem exec_removeFile_child (hc : Tree.checkPath (p.child n) = .ok ⟨⟩)
    (hp : t.resolve cwd p = .ok pos) (hget : t.get? (pos.loc ++ [n]) = some node)
    (hleaf : t.IsLeaf (pos.loc ++ [n])) :
    (removeFile cwd (p.child n)).exec t = (.ok ⟨⟩, t.erase (pos.loc ++ [n])) := by
  obtain ⟨hdir, hn⟩ := Tree.parent_of_get? hget
  have hlocate : t.locate cwd (p.child n) = .ok (pos.loc ++ [n]) := by
    rw [Tree.locate_child hn hp hdir hc, if_pos (by simp [hget])]
  unfold removeFile
  rw [Edit.exec_bind_of_ok Edit.exec_get, hlocate]
  refine Edit.exec_onError_of_ok (Edit.exec_step_of_ok ?_)
  unfold Tree.removeFile
  rw [hlocate]
  exact if_neg hleaf.1

section Finish

variable (hvalid : c.Valid) (hp : archived.resolve cwd c.targetDir = .ok pos)
  (hdir : archived.get? pos.loc = some .dir)
  (hlink : ∀ target, archived.get? (pos.loc ++ [(c.name : Name)]) ≠ some (.link target))
  (hc : Tree.checkPath c.archivePath = .ok ⟨⟩)
  (hzip : archived.get? (pos.loc ++ [(c.name ++ ".zip" : Name)]) = some node)
  (hends : node ≠ .device .full)
  (hleaf : archived.IsLeaf (pos.loc ++ [(c.name ++ ".zip" : Name)]))

include hvalid hp hdir hlink hc hzip hends hleaf

/-- Once the archive is complete, packaging fails for the artifact only, and only the artifact and
the archive are touched. -/
theorem finish_error (h : (finish cwd c summary).exec archived = (.error e, t')) :
    (∃ cause, e = .io c.artifactPath cause ∨ e = .hash c.artifactPath cause) ∧
      Tree.Beside archived pos.loc ([c.name, c.name ++ ".zip"] : List Name) t' := by
  have hmem : (c.name : Name) ∈ [(c.name : Name)] := List.mem_cons_self
  have hmore : [(c.name : Name)] ⊆ ([c.name, c.name ++ ".zip"] : List Name) := by simp
  have hlinks : ∀ n ∈ [(c.name : Name)], ∀ target,
      archived.get? (pos.loc ++ [n]) ≠ some (.link target) :=
    fun n hn => List.mem_singleton.mp hn ▸ hlink
  -- whatever was done to the artifact, the archive is there
  have hkept {now : Tree} (hnow : Tree.Beside archived pos.loc [(c.name : Name)] now) :
      now.get? (pos.loc ++ [(c.name ++ ".zip" : Name)]) = some node ∧
        now.IsLeaf (pos.loc ++ [(c.name ++ ".zip" : Name)]) := by
    have hsame := hnow.get?_other (m := c.name ++ ".zip") (by simp)
    exact ⟨hsame.trans hzip, by rwa [Tree.IsLeaf, hsame]⟩
  have hrefl := Tree.Beside.refl archived pos.loc [c.name]
  unfold finish at h
  obtain hfail | ⟨⟨⟩, joined, hjoin, h₁⟩ := Edit.exec_bind_error h
  · obtain ⟨cause, rfl, rfl⟩ | ⟨place, hcreate, hcause⟩ := writeArtifact_error hfail
    · exact ⟨⟨cause, Or.inl rfl⟩, .refl _ _ _⟩
    · obtain ⟨-, hopened⟩ := hrefl.create hp hdir hlinks hmem hvalid.name_isEntry hcreate
      obtain ⟨cause, rfl⟩ | ⟨cause, hread⟩ := hcause
      · exact ⟨⟨cause, Or.inl rfl⟩, hopened.mono hmore⟩
      · obtain ⟨hget, hfile⟩ := hkept hopened
        obtain ⟨content, hcontent⟩ := exists_read_child hc hvalid.archiveName_isEntry.toIsPiece
          (hopened.resolve hp hdir) hget hends hfile
        rw [show c.targetDir.child (c.name ++ ".zip") = c.archivePath from rfl, hread] at hcontent
        cases hcontent
  obtain ⟨place, opened, content, hcreate, -, hwrite⟩ := writeArtifact_ok hjoin
  obtain ⟨rfl, hopened⟩ := hrefl.create hp hdir hlinks hmem hvalid.name_isEntry hcreate
  have hjoined := hopened.write hmem hwrite
  obtain hfail | ⟨⟨⟩, marked, hmark, h₂⟩ := Edit.exec_bind_error h₁
  · obtain ⟨cause, hstep, rfl⟩ := Edit.exec_onError_error hfail
    obtain ⟨-, rfl⟩ := Edit.exec_step_error hstep
    exact ⟨⟨cause, Or.inl rfl⟩, hjoined.mono hmore⟩
  have hmarked := hjoined.setMode hp hdir hlinks hmem hvalid.name_isEntry
    (Edit.exec_step_ok (Edit.exec_onError_ok hmark))
  obtain ⟨hget, hfile⟩ := hkept hmarked
  have hremove : (removeFile cwd c.archivePath).exec marked = (.ok ⟨⟩, marked.erase _) :=
    exec_removeFile_child hc (hmarked.resolve hp hdir) hget hfile
  rw [Edit.exec_bind_of_ok hremove] at h₂
  have hremoved := (hmarked.mono hmore).step (by simp) (Tree.agreeOff_erase hget hfile)
  obtain hfail | ⟨size, t₁, hsize, h₃⟩ := Edit.exec_bind_error h₂
  · obtain ⟨hsize, rfl⟩ := Edit.exec_inspect_error hfail
    obtain ⟨cause, -, rfl⟩ := mapError_eq_error hsize
    exact ⟨⟨cause, Or.inl rfl⟩, hremoved⟩
  obtain ⟨-, rfl⟩ := Edit.exec_inspect_ok hsize
  obtain hfail | ⟨sha256, t₂, -, h₄⟩ := Edit.exec_bind_error h₃
  · obtain ⟨hdigest, rfl⟩ := Edit.exec_inspect_error hfail
    obtain ⟨cause, -, rfl⟩ := mapError_eq_error hdigest
    exact ⟨⟨cause, Or.inr rfl⟩, hremoved⟩
  · cases h₄

end Finish

/-! ## What remains -/

/-- An error that tells of the source. One that tells of the artifact does not, even if the source
is spelled as the artifact is. -/
inductive OfSource (c : Config) : Error → Prop
  | notFound (p : Path) : OfSource c (.sourceNotFound p)
  | notDirectory (p : Path) : OfSource c (.sourceNotDirectory p)
  | io (cause : OsError) (hne : c.sourceDir ≠ c.artifactPath) : OfSource c (.io c.sourceDir cause)

theorem OfSource.of_io {cause : OsError} (h : OfSource c (.io p cause)) :
    p = c.sourceDir ∧ c.sourceDir ≠ c.artifactPath := by
  cases h with
  | io _ hne => exact ⟨rfl, hne⟩

/-- While the archive is not complete, a location shows what it showed before, or there is a new
directory on the way to the target directory, or it is the place of the archive. -/
def Begun (t : Tree) (cwd : Loc) (c : Config) (t' : Tree) (l : Loc) : Prop :=
  t'.get? l = t.get? l ∨ Tree.MadeAt t cwd c.targetDir t' l ∨
    ∃ pos, t'.resolve cwd c.targetDir = .ok pos ∧ l = pos.loc ++ [(c.name ++ ".zip" : Name)] ∧
      Rewritten (t.get? l) (t'.get? l)

/-- What packaging leaves when it fails with an error. -/
structure Remains (t : Tree) (cwd : Loc) (c : Config) (e : Error) (t' : Tree) : Prop where
  /-- For want of a source nothing is changed. -/
  source : OfSource c e → t' = t
  begun : ¬ Archived t cwd c → ∀ l, Begun t cwd c t' l
  /-- In particular, an artifact that was there is kept. -/
  kept : ¬ Archived t cwd c → ∀ pos node, t'.resolve cwd c.targetDir = .ok pos →
    t.get? (pos.loc ++ [(c.name : Name)]) = some node →
      t'.get? (pos.loc ++ [(c.name : Name)]) = some node
  /-- When the archive is complete, it is the artifact that packaging fails for. The target
  directory is there, and apart from it and those above it only the artifact and the archive are
  changed. -/
  archived : Archived t cwd c →
    (∃ cause, e = .io c.artifactPath cause ∨ e = .hash c.artifactPath cause) ∧
    ∃ pos, t'.resolve cwd c.targetDir = .ok pos ∧ t'.get? pos.loc = some .dir ∧
      ∀ l, t'.get? l = t.get? l ∨ Tree.MadeAt t cwd c.targetDir t' l ∨
        ∃ n ∈ ([c.name, c.name ++ ".zip"] : List Name), l = pos.loc ++ [n]

/-- In the target directory no link has the name of the artifact or of the archive. -/
def Unlinked (t : Tree) (cwd : Loc) (c : Config) : Prop :=
  ∀ pos, (prepared t cwd c).resolve cwd c.targetDir = .ok pos →
    ∀ n ∈ ([c.name, c.name ++ ".zip"] : List Name), ∀ target,
      t.get? (pos.loc ++ [n]) ≠ some (.link target)

theorem madeWay_prepared (t : Tree) (cwd : Loc) (c : Config) :
    Tree.MadeWay t cwd c.targetDir (prepared t cwd c) :=
  Tree.makeDirAll_made t cwd c.targetDir

theorem Unlinked.prepared (h : Unlinked t cwd c)
    (hp : (prepared t cwd c).resolve cwd c.targetDir = .ok pos)
    (hn : n ∈ ([c.name, c.name ++ ".zip"] : List Name)) (target : Path) :
    (prepared t cwd c).get? (pos.loc ++ [n]) ≠ some (.link target) := by
  intro hlink
  have hsame := (madeWay_prepared t cwd c).same (l := pos.loc ++ [n]) (by simp [hlink])
  exact h pos hp n hn target (hsame ▸ hlink)

theorem Begun.kept (h : Begun t cwd c t' (pos.loc ++ [(c.name : Name)]))
    (hp : t'.resolve cwd c.targetDir = .ok pos)
    (hget : t.get? (pos.loc ++ [(c.name : Name)]) = some node) :
    t'.get? (pos.loc ++ [(c.name : Name)]) = some node := by
  rcases h with hsame | ⟨hfree, -, -⟩ | ⟨stop, hstop, hplace, -⟩
  · rw [hsame, hget]
  · rw [hfree] at hget
    cases hget
  · rw [hp] at hstop
    cases hstop
    exact absurd hplace (Ne.symm (by simp))

/-- The archive that was created is the only thing that is changed but for new directories. -/
theorem begun_of_create (hvalid : c.Valid) (hlinks : Unlinked t cwd c)
    (hcreate : Tree.create cwd c.archivePath (prepared t cwd c) = .ok (place, opened))
    (hwrite : t' = opened ∨ ∃ content, Tree.write place content opened = .ok (⟨⟩, t')) (l : Loc) :
    Begun t cwd c t' l := by
  obtain ⟨pos, hp, hdir, rfl, hbeside⟩ := archive_placed hvalid
    (fun pos hp => hlinks.prepared hp (by simp)) hcreate hwrite
  have hway := madeWay_prepared t cwd c
  rcases hway.beside hbeside l with hsame | hmade | ⟨n, hn, rfl⟩
  · exact Or.inl hsame
  · exact Or.inr (Or.inl hmade)
  · obtain rfl := List.mem_singleton.mp hn
    rcases rewritten_of_create hcreate hwrite with ⟨d, hbefore, hafter⟩ | hrewritten
    · rw [hway.same (by simp [hbefore])] at hbefore
      exact Or.inl (hafter.trans hbefore.symm)
    · rw [hway.same hrewritten.not_isDir] at hrewritten
      exact Or.inr (Or.inr ⟨pos, hbeside.resolve hp hdir, rfl, hrewritten⟩)

/-- Packaging that fails when the archive is complete. -/
theorem Archives.failed (harchived : Archives t cwd c made summary archived) (hvalid : c.Valid)
    (hlinks : Unlinked t cwd c) (h : (finish cwd c summary).exec archived = (.error e, t')) :
    (∃ cause, e = .io c.artifactPath cause ∨ e = .hash c.artifactPath cause) ∧
    ∃ pos, t'.resolve cwd c.targetDir = .ok pos ∧ t'.get? pos.loc = some .dir ∧
      ∀ l, t'.get? l = t.get? l ∨ Tree.MadeAt t cwd c.targetDir t' l ∨
        ∃ n ∈ ([c.name, c.name ++ ".zip"] : List Name), l = pos.loc ++ [n] := by
  obtain rfl : prepared t cwd c = made := congrArg Prod.snd harchived.makes
  obtain ⟨place, opened, hcreate, -, -, -, hwrite⟩ := writeArchive_ok harchived.archives
  obtain ⟨pos, hp, hdir, rfl, hbeside⟩ := archive_placed hvalid
    (fun pos hp => hlinks.prepared hp (by simp)) hcreate (Or.inr ⟨_, hwrite⟩)
  obtain ⟨node, hzip, hends, hleaf⟩ :
      ∃ node, archived.get? (pos.loc ++ [(c.name ++ ".zip" : Name)]) = some node ∧
        node ≠ .device .full ∧ archived.IsLeaf (pos.loc ++ [(c.name ++ ".zip" : Name)]) := by
    rcases (Tree.create_write_ok hcreate (draftOf_close_ne_nil _ _) hwrite).2 with
      ⟨mode, hget⟩ | hget
    · exact ⟨_, hget, by simp, by simp [Tree.IsLeaf, hget]⟩
    · exact ⟨_, hget, by simp, by simp [Tree.IsLeaf, hget]⟩
  obtain ⟨herror, hfinished⟩ := finish_error hvalid (hbeside.resolve hp hdir) (hbeside.isDir hdir)
    (fun target => hbeside.not_link (hlinks.prepared hp (by simp) target))
    (Tree.spot_of_create hcreate).1 hzip hends hleaf h
  have hboth := (hbeside.mono (by simp)).trans hfinished
  exact ⟨herror, pos, hboth.resolve hp hdir, hboth.isDir hdir,
    (madeWay_prepared t cwd c).beside hboth⟩

/-- If the source is what the path of the archive leads to, the target directory is there. -/
theorem prepared_eq_of_source (hvalid : c.Valid) (hsame : c.archivePath = c.sourceDir)
    (hsource : t.stat cwd c.sourceDir = .ok .dir) : prepared t cwd c = t := by
  rw [← hsame] at hsource
  obtain ⟨pos, hresolve, -⟩ := Tree.stat_eq_ok.mp hsource
  exact prepared_eq (Tree.stat_of_resolve_child c.bytes_targetDir_ne c.endsWithSlash_targetDir
    hvalid.archiveName_isEntry.toIsPiece hresolve)

namespace Failure

/-- An error that tells of the source leaves everything as it was. -/
theorem eq_of_source (h : Failure t cwd c e t') (hvalid : c.Valid) (hlinks : Unlinked t cwd c)
    (hof : OfSource c e) : t' = t := by
  cases h with
  | source h => rfl
  | making hsource h =>
    rw [← hof.of_io.1] at hsource
    have hkept : (Tree.makeDirAll cwd c.targetDir).exec t = (.ok ⟨⟩, t) :=
      Tree.makeDirAll_of_isDir (Name.isEntry_of_valid (by decide)) hsource
    rw [hkept] at h
    cases h
  | archiving hsource hmake h =>
    obtain rfl : prepared t cwd c = _ := congrArg Prod.snd hmake
    obtain ⟨cause, rfl, rfl⟩ | ⟨place, opened, hcreate, -, hcause⟩ := writeArchive_error h
    · exact prepared_eq_of_source hvalid hof.of_io.1 hsource
    · obtain ⟨fault, hfault, heq⟩ | ⟨p, cause, rfl⟩ | ⟨cause, rfl⟩ | ⟨v, hv, rfl⟩ := hcause
      · cases hof with
        | notFound | notDirectory => cases fault <;> cases heq
        | io cause => exact absurd heq.symm (faultError_ne_source hfault)
      · cases hof
      · have hsame := hof.of_io.1
        rw [prepared_eq_of_source hvalid hsame hsource] at hcreate
        exact absurd (hsame ▸ hsource) (Tree.not_isDir_of_create hcreate)
      · exact absurd hof.of_io.1 (descend_ne_self (valid_of_mem_archiveWalk hv)
          (Walk.listed_of_mem_ofSource hv).ne.symm)
  | finishing harchived h =>
    obtain ⟨⟨cause, rfl | rfl⟩, -⟩ := harchived.failed hvalid hlinks h
    · exact absurd hof.of_io.1.symm hof.of_io.2
    · cases hof

/-- What fails before the archive is complete. -/
theorem begun (h : Failure t cwd c e t') (hvalid : c.Valid) (hlinks : Unlinked t cwd c)
    (hnot : ¬ Archived t cwd c) (l : Loc) : Begun t cwd c t' l := by
  cases h with
  | source h => exact Or.inl rfl
  | making hsource h =>
    have hmade : prepared t cwd c = t' := congrArg Prod.snd h
    exact (hmade ▸ madeWay_prepared t cwd c l).imp_right Or.inl
  | archiving hsource hmake h =>
    obtain rfl : prepared t cwd c = _ := congrArg Prod.snd hmake
    obtain ⟨cause, -, rfl⟩ | ⟨place, opened, hcreate, hwrite, -⟩ := writeArchive_error h
    · exact (madeWay_prepared t cwd c l).imp_right Or.inl
    · exact begun_of_create hvalid hlinks hcreate hwrite l
  | finishing harchived h => exact absurd ⟨_, _, _, harchived⟩ hnot

/-- What fails when the archive is complete. -/
theorem finishing_of_archived (h : Failure t cwd c e t') (harchived : Archived t cwd c) :
    ∃ made summary archived, Archives t cwd c made summary archived ∧
      (finish cwd c summary).exec archived = (.error e, t') := by
  obtain ⟨made, summary, archived, hisDir, hmake, harchive⟩ := harchived
  cases h with
  | source h =>
    unfold checkSource at h
    rw [hisDir] at h
    cases h
  | making hsource h =>
    rw [hmake] at h
    cases h
  | archiving hsource hmake' h =>
    rw [hmake] at hmake'
    cases hmake'
    rw [harchive] at h
    cases h
  | finishing harchived h => exact ⟨_, _, _, harchived, h⟩

end Failure

/-- **What a failed package leaves**, in a project where no link has the name of the artifact or of
the archive. -/
theorem run_error_remains (hvalid : c.Valid) (hlinks : Unlinked t cwd c)
    (h : (run cwd c).exec t = (.error e, t')) : Remains t cwd c e t' where
  source := (run_error h).eq_of_source hvalid hlinks
  begun := (run_error h).begun hvalid hlinks
  kept hnot pos node hp hget := ((run_error h).begun hvalid hlinks hnot _).kept hp hget
  archived harchived := by
    obtain ⟨made, summary, archived, harchives, hfinish⟩ :=
      (run_error h).finishing_of_archived harchived
    exact harchives.failed hvalid hlinks hfinish

/-- A project with an older artifact, whose source cannot be gone through. -/
def danglingProject : Tree :=
  Tree.placeAll [] [.link ⟨"/p/src/a.py"⟩ ⟨"missing"⟩, .file ⟨"/p/target/templates"⟩ [7] 0o700]
    Tree.empty

set_option maxRecDepth 100000 in
theorem run_error_remains_dangling :
    plainConfig.Valid ∧ Unlinked danglingProject [] plainConfig ∧
      ∃ e t', (run [] plainConfig).exec danglingProject = (.error e, t') ∧
        Remains danglingProject [] plainConfig e t' := by
  have htarget : (prepared danglingProject [] plainConfig).resolve [] plainConfig.targetDir =
      .ok ⟨["p", "target"], Tree.maxLinks⟩ := by
    decide +kernel
  have hartifact : danglingProject.get? ["p", "target", "templates"] = some (.file [7] 0o700) := by
    decide +kernel
  have harchive : danglingProject.get? ["p", "target", "templates.zip"] = none := by
    decide +kernel
  have hlinks : Unlinked danglingProject [] plainConfig := by
    intro pos hpos n hn target hlink
    rw [htarget] at hpos
    cases hpos
    rcases List.mem_pair.mp hn with rfl | rfl
    · exact absurd (hartifact.symm.trans hlink) (by simp)
    · exact absurd (harchive.symm.trans hlink) (by simp)
  have hfail : ((run [] plainConfig).exec danglingProject).1.isOk = false := by decide +kernel
  generalize hrun : (run [] plainConfig).exec danglingProject = after at hfail
  obtain ⟨e | report, t'⟩ := after
  · have hvalid : plainConfig.Valid := by decide +kernel
    exact ⟨hvalid, hlinks, e, t', rfl, run_error_remains hvalid hlinks hrun⟩
  · cases hfail

/-- A project whose source is at the place of the artifact. -/
def crossedProject : Tree := Tree.placeAll [] [.dir ⟨"/p/target/templates"⟩] Tree.empty

/-- Its configuration. -/
def crossedConfig : Config := { plainConfig with src := ⟨"target/templates"⟩ }

set_option maxRecDepth 100000 in
/-- **An error for the path of the source can leave an archive**, where the source is spelled as the
artifact is. -/
theorem source_at_artifact_leaves_archive :
    crossedConfig.Valid ∧
      (∀ l ∈ ([["p", "target"], ["p", "target", "templates"],
          ["p", "target", "templates.zip"]] : List Loc), ∀ target,
        crossedProject.get? l ≠ some (.link target)) ∧
      ∃ t', (run [] crossedConfig).exec crossedProject =
          (.error (.io crossedConfig.sourceDir .isDirectory), t') ∧
        crossedProject.get? ["p", "target", "templates.zip"] = none ∧
        (t'.get? ["p", "target", "templates.zip"]).isSome := by
  have hviews : (crossedProject.get? ["p", "target"],
      crossedProject.get? ["p", "target", "templates"],
      crossedProject.get? ["p", "target", "templates.zip"]) = (some .dir, some .dir, none) := by
    decide +kernel
  have hfail : ((run [] crossedConfig).exec crossedProject).1 =
      .error (.io crossedConfig.sourceDir .isDirectory) := by
    decide +kernel
  have hleft : (((run [] crossedConfig).exec crossedProject).2.get?
      ["p", "target", "templates.zip"]).isSome = true := by
    decide +kernel
  simp only [Prod.mk.injEq] at hviews
  obtain ⟨htarget, hartifact, harchive⟩ := hviews
  refine ⟨by decide +kernel, ?_, _, Prod.ext hfail rfl, harchive, hleft⟩
  intro l hl target
  simp only [List.mem_cons, List.not_mem_nil, or_false] at hl
  rcases hl with rfl | rfl | rfl
  · simp [htarget]
  · simp [hartifact]
  · simp [harchive]

end Zipship.Package
