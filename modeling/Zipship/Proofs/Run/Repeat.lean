import Zipship.Proofs.Clean.Again
import Zipship.Proofs.Package.Frame

/-!
# Building again

A clean build that comes behind a clean build changes nothing (`clean_compile_again`). The second
cleaning finds nothing but the target directory that the first build made, and leaves the very tree
from which that one was packaged. So the second packaging is the first one once more: whatever the
archive depends on, it is the same.
-/

namespace Zipship

open Package (Artifact)

variable {t t' swept : Tree} {cwd root : Loc} {c : Config} {archive : Bytes} {m m' : Machine}
  {host : Host} {options : RunOptions} {r : RunReport} {env : Environment} {dir : Path}
  {given : Config.Overrides} {cleaned : Clean.Report} {report : Package.Report}

/-- The artifact is all that the target directory holds. -/
theorem Package.Artifact.sizeAt_target (h : Artifact t root c report archive)
    (hcheck : Tree.checkPath c.artifactPath = .ok ⟨⟩) :
    t.sizeAt c.targetDir (root ++ [("target" : Name)]) = report.sizeBytes := by
  have hfile := h.file
  rw [List.append_cons] at hfile
  unfold Tree.sizeAt
  rw [h.target_isDir, h.size_eq]
  refine Tree.bytesBelow_of_alone (by simp) h.target_isDir hfile hcheck fun k hk hsome => ?_
  obtain ⟨rest, rfl⟩ := hk
  rw [List.append_assoc, List.singleton_append] at hsome ⊢
  rcases (h.alone rest).mp hsome with rfl | rfl
  · exact Or.inl rfl
  · exact Or.inr (by simp)

/-- Where nothing is in the way of the target directory, packaging leaves the artifact there. -/
theorem Package.artifact_of_run_ok (hvalid : c.Valid) (hroot : c.root = root.path)
    (hdir : t.get? root = some .dir) (hnone : t.get? (root ++ [("target" : Name)]) = none)
    (h : (Package.run cwd c).exec t = (.ok report, t')) :
    ∃ archive, Artifact t' root c report archive := by
  obtain ⟨made, archived, joined, marked, summary, hstages⟩ := run_ok h
  obtain ⟨entries, -, -, hview⟩ := hstages.get? hvalid hroot hdir hnone
  exact ⟨_, hstages.artifact_of_get? hvalid hroot hdir hnone hview⟩

/-- What the two tasks of a clean build do to the tree makes the run. -/
theorem executePlan_of_ok
    (hclean : (Clean.run host.cwd c options.dryRun).exec m.tree = (.ok cleaned, swept))
    (hcompile : (Package.run host.cwd c).exec swept = (.ok report, t')) :
    ∃ m', executePlan host c options [.clean, .compile] m =
      (⟨[.clean, .compile], [.clean cleaned, .compile report], none⟩, m') ∧ m'.tree = t' := by
  obtain ⟨last, hrun, htree⟩ : ∃ last, execute (Task.perform host c options) [.clean, .compile] m =
      (([.clean cleaned, .compile report], none), last) ∧ last.tree = t' :=
    ⟨_, execute_cons_of_ok (perform_clean_of_ok hclean)
      (execute_cons_of_ok (perform_compile_of_ok hcompile) rfl), rfl⟩
  unfold executePlan
  rw [hrun]
  exact ⟨last, rfl, htree⟩

/-- **A clean build behind a clean build changes nothing.** It makes the same report on the package,
leaves the same tree entry by entry, and with it the same artifact, and all that it cleans is the
target directory with the artifact in it. -/
theorem clean_compile_again (hload : Config.load m.tree cwd env dir given = .ok c)
    (hdry : options.dryRun = false)
    (h : executePlan host c options [.clean, .compile] m = (r, m')) (hr : r.failed = none) :
    ∃ cleaned report, r.completed = [.clean cleaned, .compile report] ∧
      ∀ again, again.tree = m'.tree →
        ∃ m'', executePlan host c options [.clean, .compile] again =
            (⟨[.clean, .compile],
              [.clean ⟨[c.targetDir], report.sizeBytes, false⟩, .compile report], none⟩, m'') ∧
          m''.tree = m'.tree := by
  obtain ⟨hvalid, root, node, hget, hlink, hroot⟩ := Config.load_ok hload
  obtain ⟨cleaned, report, swept, hclean, hcompile, hcompleted⟩ := Package.clean_compile_ok h hr
  rw [hdry] at hclean
  obtain rfl : node = .dir := Clean.isDir_of_run_ok hget hlink hroot hclean
  obtain ⟨hdir, hnone⟩ := Package.get?_of_clean_ok hget hroot hclean
  obtain ⟨archive, hartifact⟩ := Package.artifact_of_run_ok hvalid hroot hdir hnone hcompile
  have hconfined : Package.InTarget swept root m'.tree := by
    have hkept : Package.InTarget swept root ((Package.run host.cwd c).exec swept).2 :=
      (Package.run_keeps_inTarget hvalid hroot hdir).exec (.of_get?_eq_none hnone)
    rwa [hcompile] at hkept
  refine ⟨cleaned, report, hcompleted, fun again hagain => ?_⟩
  have hreclean := Clean.run_again hget hroot hclean hconfined
    (Option.isSome_of_mem hartifact.target_isDir)
  rw [hartifact.sizeAt_target (Package.checkPath_of_run_ok hcompile), ← hagain] at hreclean
  exact executePlan_of_ok (by rw [hdry, hreclean]) hcompile

open Package (stale bareHost) in
set_option maxRecDepth 100000 in
theorem clean_compile_again_stale :
    ∃ c r m', Config.load stale.tree [] [] ⟨"/p"⟩ .none = .ok c ∧
      executePlan bareHost c ⟨false, []⟩ [.clean, .compile] stale = (r, m') ∧ r.failed = none ∧
      ∃ cleaned report, r.completed = [.clean cleaned, .compile report] ∧
        ∃ m'', executePlan bareHost c ⟨false, []⟩ [.clean, .compile] m' =
            (⟨[.clean, .compile],
              [.clean ⟨[c.targetDir], report.sizeBytes, false⟩, .compile report], none⟩, m'') ∧
          m''.tree = m'.tree := by
  have hload : Config.load stale.tree [] [] ⟨"/p"⟩ .none = .ok (Config.withRoot ⟨"/p"⟩) := by
    decide +kernel
  have hfailed : (executePlan bareHost (Config.withRoot ⟨"/p"⟩) ⟨false, []⟩ [.clean, .compile]
      stale).1.failed = none := by
    decide +kernel
  generalize hafter : executePlan bareHost (Config.withRoot ⟨"/p"⟩) ⟨false, []⟩
    [.clean, .compile] stale = after at hfailed
  obtain ⟨r, m'⟩ := after
  obtain ⟨cleaned, report, hcompleted, hagain⟩ := clean_compile_again hload rfl hafter hfailed
  exact ⟨_, r, m', hload, hafter, hfailed, cleaned, report, hcompleted, hagain m' rfl⟩

end Zipship
