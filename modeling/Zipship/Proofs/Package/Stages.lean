import Zipship.Package.Run
import Zipship.Proofs.Package.Archive

/-!
# The stages of packaging

A package that succeeds was made in steps, and each step left a tree for the next one. `Stages`
names those trees, and `run_ok` finds them.
-/

namespace Zipship.Package

variable {t made archived joined marked t' : Tree} {cwd loc : Loc} {c : Config} {report : Report}
  {p archive artifact : Path} {line : String} {node : Node}

/-- The trees that the steps of a successful package leave: the target directory was made, the
source was archived into it, the artifact was written from the archive and marked as executable,
and the archive was removed. -/
structure Stages (cwd : Loc) (c : Config) (report : Report) (summary : Summary)
    (t made archived joined marked t' : Tree) : Prop where
  source_isDir : t.stat cwd c.sourceDir = .ok .dir
  makes : (Tree.makeDirAll cwd c.targetDir).exec t = (.ok ⟨⟩, made)
  archives : (writeArchive cwd c.sourceDir c.archivePath c.targetDir).exec made =
    (.ok summary, archived)
  joins : (writeArtifact cwd c.shebang c.archivePath c.artifactPath).exec archived =
    (.ok ⟨⟩, joined)
  marks : Tree.setMode cwd c.artifactPath artifactMode joined = .ok (⟨⟩, marked)
  removes : (removeFile cwd c.archivePath).exec marked = (.ok ⟨⟩, t')
  artifact : report.artifact = c.artifactPath
  interpreter : report.interpreter = c.python
  entries : report.entries = summary.entries
  hasEntryPoint : report.hasEntryPoint = summary.hasEntryPoint
  size : fileSize cwd c.artifactPath t' = .ok report.sizeBytes
  digest : Digest.hashFile t' cwd c.artifactPath = .ok report.sha256

theorem checkSource_ok {source : Path} (h : checkSource cwd source t = .ok ⟨⟩) :
    t.stat cwd source = .ok .dir := by
  unfold checkSource at h
  cases hstat : t.stat cwd source with
  | error e =>
    rw [hstat] at h
    simp only at h
    split_ifs at h
  | ok node =>
    rw [hstat] at h
    cases node with
    | dir => rfl
    | file _ _ | link _ | device _ => cases h

/-- The size of a file is that of what its path leads to. -/
theorem fileSize_ok {size : Nat} (h : fileSize cwd p t = .ok size) :
    ∃ node, t.stat cwd p = .ok node ∧ size = node.size := by
  have hmap := mapError_eq_ok h
  cases hstat : t.stat cwd p with
  | error e =>
    rw [hstat] at hmap
    cases hmap
  | ok node =>
    rw [hstat] at hmap
    cases hmap
    exact ⟨node, rfl, rfl⟩

/-- The steps of writing an artifact. -/
theorem writeArtifact_ok
    (h : (writeArtifact cwd line archive artifact).exec t = (.ok ⟨⟩, t')) :
    ∃ place opened content, Tree.create cwd artifact t = .ok (place, opened) ∧
      opened.read cwd archive = .ok content ∧
      Tree.write place (Bytes.ofString line ++ content) opened = .ok (⟨⟩, t') := by
  unfold writeArtifact at h
  obtain ⟨place, opened, hcreate, h₁⟩ := Edit.exec_bind_ok h
  obtain ⟨found, t₁, hread, h₂⟩ := Edit.exec_bind_ok h₁
  obtain ⟨hread, rfl⟩ := Edit.exec_inspect_ok hread
  exact ⟨place, t₁, found, Edit.exec_step_ok (Edit.exec_onError_ok hcreate), mapError_eq_ok hread,
    Edit.exec_step_ok (Edit.exec_onError_ok h₂)⟩

/-- Removing a file brings nothing about. -/
theorem get?_of_removeFile (h : (removeFile cwd p).exec t = (.ok ⟨⟩, t'))
    (hget : t'.get? loc = some node) : t.get? loc = some node := by
  unfold removeFile at h
  obtain ⟨now, t₀, hnow, h₁⟩ := Edit.exec_bind_ok h
  obtain ⟨rfl, rfl⟩ := Edit.exec_get_ok hnow
  cases hlocate : t₀.locate cwd p with
  | error e =>
    rw [hlocate] at h₁
    by_cases he : e = .notFound
    · simp only [if_pos he] at h₁
      obtain ⟨-, rfl⟩ := Edit.exec_pure_ok h₁
      exact hget
    · simp only [if_neg he] at h₁
      cases h₁
  | ok l =>
    rw [hlocate] at h₁
    have hremove := Edit.exec_step_ok (Edit.exec_onError_ok h₁)
    unfold Tree.removeFile at hremove
    rw [hlocate] at hremove
    obtain ⟨place, hplace, hremove⟩ := bind_eq_ok.mp hremove
    cases hplace
    split_ifs at hremove with hdir
    cases hremove
    have hne : l ≠ [] := fun he => hdir (by simp [he])
    rw [Tree.get?_erase hne] at hget
    split_ifs at hget
    exact hget

theorem run_ok (h : (run cwd c).exec t = (.ok report, t')) :
    ∃ made archived joined marked summary,
      Stages cwd c report summary t made archived joined marked t' := by
  unfold run at h
  obtain ⟨⟨⟩, t₀, hsource, h₁⟩ := Edit.exec_bind_ok h
  obtain ⟨hsource, rfl⟩ := Edit.exec_inspect_ok hsource
  obtain ⟨⟨⟩, made, hmake, h₂⟩ := Edit.exec_bind_ok h₁
  obtain ⟨summary, archived, harchive, h₃⟩ := Edit.exec_bind_ok h₂
  obtain ⟨⟨⟩, joined, hjoin, h₄⟩ := Edit.exec_bind_ok h₃
  obtain ⟨⟨⟩, marked, hmark, h₅⟩ := Edit.exec_bind_ok h₄
  obtain ⟨⟨⟩, removed, hremove, h₆⟩ := Edit.exec_bind_ok h₅
  obtain ⟨size, t₁, hsize, h₇⟩ := Edit.exec_bind_ok h₆
  obtain ⟨hsize, rfl⟩ := Edit.exec_inspect_ok hsize
  obtain ⟨sha256, t₂, hdigest, h₈⟩ := Edit.exec_bind_ok h₇
  obtain ⟨hdigest, rfl⟩ := Edit.exec_inspect_ok hdigest
  obtain ⟨rfl, rfl⟩ := Edit.exec_pure_ok h₈
  exact ⟨made, archived, joined, marked, summary,
    { source_isDir := checkSource_ok hsource
      makes := Edit.exec_onError_ok hmake
      archives := harchive
      joins := hjoin
      marks := Edit.exec_step_ok (Edit.exec_onError_ok hmark)
      removes := hremove
      artifact := rfl
      interpreter := rfl
      entries := rfl
      hasEntryPoint := rfl
      size := hsize
      digest := mapError_eq_ok hdigest }⟩

/-- The path of an artifact that was made is one that the operating system takes. -/
theorem checkPath_of_run_ok (h : (run cwd c).exec t = (.ok report, t')) :
    Tree.checkPath c.artifactPath = .ok ⟨⟩ := by
  obtain ⟨made, archived, joined, marked, summary, hstages⟩ := run_ok h
  obtain ⟨node, hstat, -⟩ := fileSize_ok hstages.size
  obtain ⟨pos, hresolve, -⟩ := Tree.stat_eq_ok.mp hstat
  exact (Tree.resolve_ok hresolve).1

end Zipship.Package
