import Zipship.Command.Run
import Zipship.Proofs.Clean.Frame
import Zipship.Proofs.Command.Line
import Zipship.Proofs.Package.Frame
import Zipship.Proofs.Run.Invariant
import Zipship.Proofs.Task.Plan

/-!
# A run spares the sources

Whatever a command line asks for and wherever the run ends, only transient artifacts are gone, and
only the build output is new (`run_spares_sources`), as long as the test runner changes nothing.

Packaging alone would not be safe: it writes through links that it finds in the target directory.
But every plan that has it has cleaning in front of it, and that is no dry run then. So when
packaging starts there is nothing where the target directory belongs.
-/

namespace Zipship.Command

variable {t t' swept : Tree} {root : Loc} {c : Config} {host : Host} {options : RunOptions}
  {plan : List Task} {node : Node} {l : CommandLine} {args : List String} {path : Path}
  {elapsed : Display.Duration} {m : Machine}

/-- What a run leaves of the tree that it found. -/
structure Spared (t : Tree) (root : Loc) (t' : Tree) : Prop where
  /-- What is not transient is as it was. -/
  sources : ∀ k, ¬ Clean.Transient t root k → t'.get? k = t.get? k
  /-- Whatever there is outside of the build output was there before. -/
  nothing_new : ∀ k, ¬ root ++ [("target" : Name)] <+: k → (t'.get? k).isSome → t'.get? k = t.get? k

/-- Transient artifacts may be removed, and anything may happen to the build output. -/
theorem Spared.of_pruned (h : Clean.Pruned t root swept)
    (hframe : ∀ k, ¬ root ++ [("target" : Name)] <+: k → t'.get? k = swept.get? k) :
    Spared t root t' where
  sources k hkeep := by
    rw [hframe k, h.get?_eq hkeep]
    rintro ⟨rest, rfl⟩
    rw [List.append_assoc] at hkeep
    exact hkeep (.fixed (by simp))
  nothing_new k hk hsome := by
    rw [hframe k hk] at hsome ⊢
    rcases h k with heq | ⟨hnone, -⟩
    · exact heq
    · rw [hnone] at hsome
      cases hsome

section Runs

variable (hvalid : c.Valid) (hroot : c.root = root.path) (hget : m.tree.get? root = some node)
  (hlink : ∀ target, node ≠ .link target)
  (hrunner : ∀ log l t ended, host.launcher log l t = .ok ended → ended.tree = t)

include hvalid hroot hget hlink hrunner

/-- A plan that cleans first, and does nothing else in a dry run, spares the sources. -/
theorem executePlan_spares (hplan : plan = [] ∨ ∃ rest, plan = .clean :: rest ∧ .clean ∉ rest)
    (hdry : options.dryRun = true → plan = [.clean]) :
    Spared m.tree root (executePlan host c options plan m).2.tree := by
  rcases hplan with rfl | ⟨rest, rfl, hrest⟩
  · exact .of_pruned (.refl _ _) fun _ _ => rfl
  have hpruned : Clean.Pruned m.tree root ((Task.perform host c options .clean).exec
      (m.record (.started .clean))).2.tree := by
    rw [Task.tree_perform_clean]
    exact Clean.run_prunes hget hlink hroot
  show Spared m.tree root (execute (Task.perform host c options) (.clean :: rest) m).2.tree
  unfold execute
  split
  · rename_i hfailed
    rw [hfailed] at hpruned
    exact .of_pruned hpruned fun _ _ => rfl
  · rename_i outcome m₁ hdone
    rw [hdone] at hpruned
    by_cases hreal : options.dryRun = true
    · obtain rfl : rest = [] := (List.cons.inj (hdry hreal)).2
      exact .of_pruned hpruned fun _ _ => rfl
    · -- cleaning came to its end, so the target directory is gone
      obtain ⟨cleaned, hclean, -⟩ := perform_clean_ok hdone
      rw [Bool.eq_false_iff.mpr hreal] at hclean
      obtain rfl : node = .dir := Clean.isDir_of_run_ok hget hlink hroot hclean
      obtain ⟨hdir, hnone⟩ := Package.get?_of_clean_ok hget hroot hclean
      have hkept : Package.InTarget m₁.tree root (execute (Task.perform host c options) rest
          (m₁.record (.finished outcome))).2.tree := by
        refine execute_keeps (fun task ht => ?_) (.of_get?_eq_none hnone)
        have htask : task ≠ .clean := fun he => hrest (he ▸ ht)
        exact Task.keeps_perform hrunner htask (Package.run_keeps_inTarget hvalid hroot hdir)
      exact .of_pruned hpruned fun k hk => hkept.get?_eq (by simp) hk

end Runs

/-- What is asked for in a dry run is planned as cleaning alone. -/
theorem plan_of_dryRun (hparse : CommandLine.parse args = .ok l) (hdry : l.dryRun = true)
    (hplan : Graph.standard.plan l.requests = .ok plan) : plan = [.clean] := by
  have hrequests : l.requests = [.clean] := by
    unfold CommandLine.requests
    rw [CommandLine.dryRun_of_parse hparse hdry]
  have hclean : Graph.standard.plan [.clean] = .ok [.clean] := by decide
  rw [hrequests, hclean] at hplan
  exact (Except.ok.inj hplan).symm

/-- **A run never damages sources.** Whatever a command line asks for, and whether or not all of it
is done, what is not transient is as it was, and nothing new is outside of the target directory. -/
theorem run_spares_sources
    (hrunner : ∀ log l t ended, host.launcher log l t = .ok ended → ended.tree = t)
    (hparse : CommandLine.parse args = .ok l)
    (hroot : t.canonicalize host.cwd l.directory = .ok (root, path)) :
    Spared t root (run host elapsed args t).machine.tree := by
  have hsame : Spared t root t := .of_pruned (.refl _ _) fun _ _ => rfl
  unfold run
  rw [hparse]
  show Spared t root (carryOut host elapsed l t).machine.tree
  unfold carryOut
  split_ifs
  · exact hsame
  · cases hload : Config.load t host.cwd host.env l.directory l.overrides with
    | error e => exact hsame
    | ok c =>
      obtain ⟨hvalid, -⟩ := Config.load_canonical hload
      obtain ⟨-, node, hget, hlink⟩ := Tree.canonicalize_ok hroot
      cases hplan : Graph.standard.plan l.requests with
      | error task => exact hsame
      | ok plan =>
        exact executePlan_spares (m := ⟨t, []⟩) hvalid (Config.root_of_load hload hroot) hget hlink
          hrunner (Graph.clean_first hplan) fun hdry => plan_of_dryRun hparse hdry hplan

/-- A project whose target directory is a link to somewhere else, with links in it that have the
names of the artifact and of the archive. -/
def entangled : Tree :=
  Tree.placeAll [] [.link ⟨"/p/target"⟩ ⟨"/out"⟩, .file ⟨"/lib/a.py"⟩ [1] 0o644,
    .file ⟨"/lib/b.py"⟩ [2] 0o600, .link ⟨"/out/templates"⟩ ⟨"/lib/a.py"⟩,
    .link ⟨"/out/templates.zip"⟩ ⟨"/lib/b.py"⟩, .file ⟨"/p/src/__main__.py"⟩ [3] 0o644] Tree.empty

/-- A host on which every program succeeds and changes nothing. -/
def quietHost : Host := ⟨[], [], fun _ _ t => .ok ⟨.ofCode 0, [], [], t⟩⟩

set_option maxRecDepth 100000 in
theorem run_spares_sources_entangled :
    (∀ log l t ended, quietHost.launcher log l t = .ok ended → ended.tree = t) ∧
      ∃ t', (run quietHost ⟨0, 0⟩ ["run", "-C", "/p", "compile", "test"]
        entangled).machine.tree = t' ∧ Spared entangled ["p"] t' ∧
        t'.get? ["lib", "a.py"] = some (.file [1] 0o644) := by
  have hrunner : ∀ log l t ended, quietHost.launcher log l t = .ok ended → ended.tree = t := by
    intro log l t ended h
    cases h
    rfl
  have hparse : CommandLine.parse ["run", "-C", "/p", "compile", "test"] =
      .ok ⟨⟨some ⟨"/p"⟩, none, none, none, none, false⟩, .run, [.compile, .test], false, []⟩ := by
    decide +kernel
  have hroot : entangled.canonicalize [] ⟨"/p"⟩ = .ok (["p"], ⟨"/p"⟩) := by decide +kernel
  have hkeep : ¬ Clean.Transient entangled ["p"] ["lib", "a.py"] := fun h =>
    absurd h.isPrefix (by decide)
  have hfile : entangled.get? ["lib", "a.py"] = some (.file [1] 0o644) := by decide +kernel
  have hspared : Spared entangled ["p"] (run quietHost ⟨0, 0⟩
      ["run", "-C", "/p", "compile", "test"] entangled).machine.tree :=
    run_spares_sources hrunner hparse hroot
  exact ⟨hrunner, _, rfl, hspared, (hspared.sources _ hkeep).trans hfile⟩

end Zipship.Command
