import Zipship.Proofs.Clean.Frame

/-!
# Dry runs, and cleaning again

A dry run comes to what the real one comes to, except that nothing is removed (`run_dry_predicts`).

A tree that was cleaned has nothing more to find. So when there is something in the target directory
since then and nothing else has changed, cleaning again removes that directory alone and comes back
to the tree that it left before, entry by entry (`run_again`).
-/

namespace Zipship.Clean

variable {t t₁ swept : Tree} {cwd root : Loc} {c : Config} {report : Report} {dryRun : Bool}
  {names : List Name}

/-! ## What a run leaves -/

section Run

variable (hdir : t.get? root = some .dir) (hroot : c.root = root.path)
  (h : (run cwd c false).exec t = (.ok report, swept))

include hdir hroot h

theorem get?_root_of_run_ok : swept.get? root = some .dir := by
  have hpruned : Pruned t root ((run cwd c false).exec t).2 := run_prunes hdir (by simp) hroot
  rw [h] at hpruned
  rw [hpruned.get?_eq not_transient_root, hdir]

theorem get?_of_isFixed_of_run_ok (hfixed : IsFixed names) : swept.get? (root ++ names) = none :=
  ((run_ok hdir hroot h).2 _).1 ⟨names, Or.inl hfixed, List.prefix_rfl⟩

/-- In a tree that was cleaned there is nothing to find. -/
theorem cachesBelow_of_run_ok : cachesBelow swept root = [] := by
  have hpruned : Pruned t root ((run cwd c false).exec t).2 := run_prunes hdir (by simp) hroot
  rw [h] at hpruned
  refine List.eq_nil_iff_forall_not_mem.mpr fun names hnames => ?_
  obtain ⟨above, name, node, hsplit, hget, hname⟩ := (mem_cachesBelow.mp hnames).1
  have hcache : IsCache t root names :=
    ⟨above, name, node, hsplit, hpruned.get?_eq_some hget, hname⟩
  have hgone := ((run_ok hdir hroot h).2 (root ++ names)).1
    (exists_removed_of_transient (transient_self (Or.inr hcache)))
  rw [hgone] at hget
  cases hget

/-- What cleaning again comes to, if neither compiled files nor directories to search have come
since: its paths were accepted before. -/
theorem exec_run_again (hdir₁ : t₁.get? root = some .dir) (hnone : cachesBelow t₁ root = [])
    (hsub : ∀ names ∈ enteredBelow t₁ root, names ∈ enteredBelow swept root) :
    (run cwd c dryRun).exec t₁ = (.ok (expected t₁ root c.root dryRun),
      if dryRun then t₁ else t₁.eraseAll root (targets t₁ root)) := by
  have hpass := passable_of_run_ok hdir hroot h
  have hpruned : Pruned t root ((run cwd c false).exec t).2 := run_prunes hdir (by simp) hroot
  rw [h] at hpruned
  refine exec_run hdir₁ hroot ⟨fun names hnames => ?_, fun names hnames => hpass.entered names ?_⟩
  · rw [targets_of_cachesBelow_eq_nil hnone] at hnames
    exact hpass.target names (List.mem_append_left _ hnames)
  · obtain ⟨hne, hget, hentered⟩ := mem_enteredBelow.mp (hsub names hnames)
    exact mem_enteredBelow.mpr ⟨hne, hpruned.get?_eq_some hget, hentered⟩

/-- **A dry run predicts the real one, and cleaning is idempotent.** Where a run succeeds, the dry
run from the same tree gives the same list and the same number of bytes and changes nothing; and
after the run, another one of either kind succeeds, finds nothing and changes nothing. -/
theorem run_dry_predicts :
    (run cwd c true).exec t = (.ok { report with dryRun := true }, t) ∧
      ∀ dryRun, (run cwd c dryRun).exec swept = (.ok ⟨[], 0, dryRun⟩, swept) := by
  constructor
  · have hpass := passable_of_run_ok hdir hroot h
    rw [exec_run hdir hroot hpass] at h ⊢
    obtain ⟨hreport, -⟩ := Prod.mk.inj h
    rw [← Except.ok.inj hreport]
    rfl
  · intro dryRun
    have hnone := cachesBelow_of_run_ok hdir hroot h
    have hgone : ∀ names ∈ targets swept root, swept.get? (root ++ names) = none := by
      rw [targets_of_cachesBelow_eq_nil hnone]
      exact List.forall_mem_map.mpr fun name hname =>
        get?_of_isFixed_of_run_ok hdir hroot h ⟨name, hname, rfl⟩
    rw [exec_run_again hdir hroot h (get?_root_of_run_ok hdir hroot h) hnone fun _ => id, expected,
      present_eq_nil hgone, Tree.eraseAll_of_get?_eq_none hgone, ite_self]
    rfl

/-- **Cleaning again.** Where only the target directory has changed since a run that succeeded, the
next one removes that directory, and leaves the very tree that the first one left. -/
theorem run_again (hconfined : Tree.Confined swept (root ++ [("target" : Name)]) t₁)
    (hbuilt : (t₁.get? (root ++ [("target" : Name)])).isSome) :
    (run cwd c false).exec t₁ =
      (.ok ⟨[c.targetDir], t₁.sizeAt c.targetDir (root ++ [("target" : Name)]), false⟩, swept) := by
  have hnone {n : Name} (hn : n ∈ fixedNames) : swept.get? (root ++ [n]) = none :=
    get?_of_isFixed_of_run_ok hdir hroot h ⟨n, hn, rfl⟩
  have hdir₁ : t₁.get? root = some .dir := by
    rw [hconfined.get?_above, get?_root_of_run_ok hdir hroot h]
  have hlocal : t₁.get? (root ++ [(".local-ci" : Name)]) = none := by
    rw [hconfined.get?_beside (by decide)]
    exact hnone (by decide)
  have hcoverage : t₁.get? (root ++ [(".coverage" : Name)]) = none := by
    rw [hconfined.get?_beside (by decide)]
    exact hnone (by decide)
  -- without the target directory it is the tree that was left
  have hgone : t₁.eraseAll root (fixedNames.map fun n => [n]) = swept := by
    show ((t₁.erase (root ++ [(".local-ci" : Name)])).erase (root ++ [("target" : Name)])).erase
      (root ++ [(".coverage" : Name)]) = swept
    rw [Tree.erase_of_get?_eq_none hlocal, hconfined.outside,
      Tree.erase_of_get?_eq_none (hnone (by decide)),
      Tree.erase_of_get?_eq_none (hnone (by decide))]
  have hcaches : cachesBelow t₁ root = [] := by
    have hsame : cachesBelow (t₁.eraseAll root (fixedNames.map fun n => [n])) root =
        cachesBelow t₁ root := cachesBelow_congr fun k => Tree.get?_eraseAll (by decide)
    rw [← hsame, hgone]
    exact cachesBelow_of_run_ok hdir hroot h
  have hpresent : present t₁ root c.root (fixedNames.map fun n => [n]) =
      [(c.targetDir, t₁.sizeAt c.targetDir (root ++ [("target" : Name)]))] := by
    obtain ⟨node, hnode⟩ := Option.isSome_iff_exists.mp hbuilt
    show List.filterMap _ ([[".local-ci"], ["target"], [".coverage"]] : List Loc) = _
    simp only [List.filterMap_cons, List.filterMap_nil, hlocal, hcoverage, hnode, Option.map_some,
      Option.map_none]
    rfl
  have hsub : ∀ names ∈ enteredBelow t₁ root, names ∈ enteredBelow swept root := by
    intro names hnames
    obtain ⟨hne, hget, hentered⟩ := mem_enteredBelow.mp hnames
    have hview (k : Loc) : swept.get? k = _ := hgone ▸ Tree.get?_eraseAll (by decide)
    rw [← get?_of_fixed_gone hview (not_isFixed_of_isEntered hentered)] at hget
    exact mem_enteredBelow.mpr ⟨hne, hget, hentered⟩
  rw [exec_run_again hdir hroot h hdir₁ hcaches hsub, expected,
    targets_of_cachesBelow_eq_nil hcaches,
    hpresent, hgone]
  rfl

end Run

set_option maxRecDepth 100000 in
theorem run_dry_predicts_cluttered :
    ∃ report t', (run [] (Config.withRoot ⟨"/p"⟩) false).exec cluttered = (.ok report, t') ∧
      (run [] (Config.withRoot ⟨"/p"⟩) true).exec cluttered =
        (.ok { report with dryRun := true }, cluttered) ∧
      ∀ dryRun, (run [] (Config.withRoot ⟨"/p"⟩) dryRun).exec t' = (.ok ⟨[], 0, dryRun⟩, t') := by
  have hdir : cluttered.get? ["p"] = some .dir := by decide +kernel
  have hroot : (Config.withRoot ⟨"/p"⟩).root = Loc.path ["p"] := by decide +kernel
  have hrun : ((run [] (Config.withRoot ⟨"/p"⟩) false).exec cluttered).1 =
      .ok ⟨[⟨"/p/target"⟩, ⟨"/p/src/__pycache__"⟩, ⟨"/p/src/b.pyo"⟩], 18, false⟩ := by
    decide +kernel
  generalize hafter : (run [] (Config.withRoot ⟨"/p"⟩) false).exec cluttered = after at hrun
  obtain ⟨result, t'⟩ := after
  obtain rfl : result = _ := hrun
  exact ⟨_, t', rfl, run_dry_predicts hdir hroot hafter⟩

end Zipship.Clean
