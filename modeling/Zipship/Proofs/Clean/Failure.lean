import Zipship.Proofs.Clean.Sweep
import Zipship.Proofs.Clean.Walk
import Zipship.Proofs.Tree.Refusal
import Zipship.Tree.Layout

/-!
# When cleaning fails

Cleaning looks up one place after another, and what it finds it removes. It fails where a look-up is
refused. Whether one is, the first look-up decides (`run_fails_iff`): the other fixed places are in
the same directory, the directory is the one that is searched, what the search finds is really
there, and in a tree from which things were removed nothing is refused that was not refused before.
So a cleaning that fails has done nothing.
-/

namespace Zipship.Clean

variable {t t' : Tree} {cwd : Loc} {c : Config} {root : Path} {p : Path} {paths : List Path}
  {dryRun : Bool}

/-! ## Sweeps that are not refused -/

/-- A sweep succeeds unless the look-up is refused, and adds nothing. -/
theorem exec_sweep_ok (dryRun : Bool) (h : ¬ t.Refuses cwd p) : ∃ size t',
    (sweep cwd dryRun p).exec t = (.ok size, t') ∧
      ∀ l node, t'.get? l = some node → t.get? l = some node := by
  rw [exec_sweep]
  cases hlocate : t.locate cwd p with
  | error e =>
    have he : e = .notFound := by
      by_contra he
      exact h ⟨e, hlocate, he⟩
    exact ⟨none, t, if_pos he, fun _ _ hget => hget⟩
  | ok l =>
    refine ⟨_, _, rfl, fun k node hget => ?_⟩
    split_ifs at hget
    · exact hget
    · exact Tree.get?_of_erase hget

/-- Sweeps succeed if no look-up would be refused in a tree that shows at least as much. -/
theorem exec_sweepAll_ok (dryRun : Bool) (h : ∀ p ∈ paths, ¬ t.Refuses cwd p)
    (hsub : ∀ l node, t'.get? l = some node → t.get? l = some node) : ∃ swept t'',
    (sweepAll cwd dryRun paths).exec t' = (.ok swept, t'') ∧
      ∀ l node, t''.get? l = some node → t.get? l = some node := by
  induction paths generalizing t' with
  | nil => exact ⟨[], t', rfl, hsub⟩
  | cons p paths ih =>
    rw [List.forall_mem_cons] at h
    obtain ⟨size, t₁, hsweep, hsub₁⟩ := exec_sweep_ok dryRun fun href => h.1 (href.of_subset hsub)
    obtain ⟨swept, t₂, hswept, hsub₂⟩ := ih h.2 fun l node hget => hsub l node (hsub₁ l node hget)
    refine ⟨(size.map fun n => (p, n)).toList ++ swept, t₂, ?_, hsub₂⟩
    unfold sweepAll
    rw [Edit.exec_bind_of_ok hsweep, Edit.exec_bind_of_ok hswept]
    rfl

/-! ## The places that are swept -/

theorem valid_of_mem_fixedNames {n : Name} (h : n ∈ fixedNames) : n.valid = true := by
  revert n
  decide

/-- Of the fixed names, the first one is among the longest. -/
theorem length_le_of_mem_fixedNames {n : Name} (h : n ∈ fixedNames) :
    n.length ≤ Config.localCiName.length := by
  revert n
  decide

/-- No fixed place is refused if the first one is not. -/
theorem not_refuses_fixedTargets (h : ¬ t.Refuses cwd (root.child Config.localCiName)) :
    ∀ p ∈ fixedTargets root, ¬ t.Refuses cwd p := by
  intro p hp href
  obtain ⟨n, hn, rfl⟩ := List.mem_map.mp hp
  exact h (href.of_child (valid_of_mem_fixedNames hn) (by decide) (length_le_of_mem_fixedNames hn))

/-- No path that cleaning may look up is too long for the operating system. -/
structure Fits (t : Tree) (cwd : Loc) (root : Path) : Prop where
  first : (root.child Config.localCiName).bytes.length ≤ Tree.maxPathBytes
  below : ∀ pos, t.resolve cwd root = .ok pos → ∀ e ∈ t.below pos.loc,
    (root.descend e.1).bytes.length ≤ Tree.maxPathBytes

/-- The search succeeds if the first place is not refused, and what it finds is not refused. -/
theorem caches_ok (h : ¬ t.Refuses cwd (root.child Config.localCiName)) (hfits : Fits t cwd root)
    (hsub : ∀ l node, t'.get? l = some node → t.get? l = some node) :
    ∃ paths, caches cwd root t' = .ok paths ∧ ∀ p ∈ paths, ¬ t.Refuses cwd p := by
  cases hresolve : t'.resolve cwd root with
  | error e =>
    have he : e = .notFound := by
      by_contra he
      have href := Tree.refuses_child_of_resolve (n := Config.localCiName) (by decide) hresolve he
      exact h (href.of_subset hsub)
    exact ⟨[], caches_of_notFound (he ▸ hresolve), by simp⟩
  | ok pos =>
    have hthere := Tree.resolve_of_subset hsub hresolve
    refine ⟨_, (caches_eq_ok_iff hresolve).mpr ⟨rfl, fun names hnames => ?_⟩,
      fun p hp ⟨e, hlocate, _⟩ => ?_⟩
    · obtain ⟨hne, hnode, -⟩ := mem_enteredBelow.mp hnames
      have hget := hsub _ _ hnode
      exact Tree.checkPath_descend (Tree.resolve_ok hthere).1
        (fun n hn => Tree.valid_of_get? hget n (List.mem_append_right _ hn))
        (hfits.below pos hthere _ (Tree.mem_below.mpr ⟨hne, hget⟩))
    · obtain ⟨names, hnames, rfl⟩ := List.mem_map.mp hp
      obtain ⟨hcache, -⟩ := mem_cachesBelow.mp hnames
      have hne := hcache.ne_nil
      obtain ⟨above, name, node, rfl, hnode, -⟩ := hcache
      have hget := hsub _ _ hnode
      have hsize := hfits.below pos hthere _ (Tree.mem_below.mpr ⟨hne, hget⟩)
      rw [Tree.locate_descend hthere hne (Option.isSome_of_mem hget) hsize] at hlocate
      cases hlocate

/-! ## The outcome of cleaning -/

/-- Cleaning succeeds if the first place is not refused. -/
theorem run_ok_of_not_refuses (dryRun : Bool)
    (h : ¬ t.Refuses cwd (c.root.child Config.localCiName)) (hfits : Fits t cwd c.root) :
    ∃ report t', (run cwd c dryRun).exec t = (.ok report, t') := by
  obtain ⟨fixed, t₁, hfixed, hsub⟩ := exec_sweepAll_ok dryRun (not_refuses_fixedTargets h)
    fun _ _ hget => hget
  obtain ⟨paths, hcaches, hquiet⟩ := caches_ok h hfits hsub
  obtain ⟨swept, t₂, hswept, -⟩ := exec_sweepAll_ok dryRun hquiet hsub
  have hsearch : (Edit.inspect (caches cwd c.root)).exec t₁ = (.ok paths, t₁) := by
    rw [Edit.exec_inspect, hcaches]
  unfold run
  rw [Edit.exec_bind_of_ok hfixed, Edit.exec_bind_of_ok hsearch, Edit.exec_bind_of_ok hswept]
  exact ⟨_, _, rfl⟩

/-- Cleaning fails at once if the first place is refused. -/
theorem run_of_refused {e : OsError} (dryRun : Bool)
    (h : t.locate cwd (c.root.child Config.localCiName) = .error e) (he : e ≠ .notFound) :
    (run cwd c dryRun).exec t = (.error (.delete (c.root.child Config.localCiName) e), t) := by
  have hsweep : (sweep cwd dryRun (c.root.child Config.localCiName)).exec t =
      (.error (.delete (c.root.child Config.localCiName) e), t) := by
    rw [exec_sweep, h]
    exact if_neg he
  have hfixed : (sweepAll cwd dryRun (fixedTargets c.root)).exec t =
      (.error (.delete (c.root.child Config.localCiName) e), t) := by
    show (sweepAll cwd dryRun (c.root.child Config.localCiName :: _)).exec t = _
    unfold sweepAll
    rw [Edit.exec_bind, hsweep]
  unfold run
  rw [Edit.exec_bind, hfixed]

/-- Nothing is where the path of a project directory leads. The empty path stands for the working
directory, which may have been removed. -/
def Missing (t : Tree) (cwd : Loc) (root : Path) : Prop :=
  if root.bytes = [] then t.get? cwd = none else t.resolve cwd root = .error .notFound

theorem resolve_of_missing (h : Missing t cwd root) : t.resolve cwd root = .error .notFound := by
  unfold Missing at h
  split_ifs at h with hempty
  · exact Tree.resolve_empty hempty
  · exact h

theorem checkPath_of_missing (h : Missing t cwd root) (hempty : root.bytes ≠ []) :
    Tree.checkPath root = .ok ⟨⟩ := by
  rcases Tree.checkPath_cases hempty with hcheck | ⟨e, hcheck, he⟩
  · exact hcheck
  · have hresolve := (Tree.resolve_refused hcheck).symm.trans (resolve_of_missing h)
    exact absurd (Except.error.inj hresolve) he

/-- Where the project directory is missing, nothing can be looked up in it. -/
theorem directory_of_missing (h : Missing t cwd root) :
    t.directory cwd root = .error .notFound := by
  by_cases hempty : root.bytes = []
  · have hpieces : root.pieces = [] := by simp [Path.pieces, hempty, splitSlash]
    have hstart : root.start cwd = cwd := by simp [Path.start, Path.isAbsolute, hempty]
    have hcwd : t.get? cwd = none := by rwa [Missing, if_pos hempty] at h
    rw [Tree.directory_eq_error, hpieces, hstart]
    exact Or.inr ⟨_, Tree.follow_nil, by simp [hcwd], if_neg (by simp [hcwd])⟩
  · exact Tree.directory_of_resolve_error (checkPath_of_missing h hempty) (resolve_of_missing h)

/-- Where the project directory is missing, no fixed place is found. -/
theorem locate_of_missing (h : Missing t cwd root) (hfits : Fits t cwd root) :
    ∀ p ∈ fixedTargets root, t.locate cwd p = .error .notFound := by
  intro p hp
  obtain ⟨n, hn, rfl⟩ := List.mem_map.mp hp
  have hvalid := valid_of_mem_fixedNames hn
  have hnul : root.hasNul = false := by
    by_cases hempty : root.bytes = []
    · simp [Path.hasNul, hempty]
    · exact Tree.hasNul_of_checkPath (checkPath_of_missing h hempty)
  have hfirst : Tree.checkPath (root.child Config.localCiName) = .ok ⟨⟩ :=
    Tree.checkPath_child_of_hasNul hnul ⟨by decide, by decide⟩ (by decide) hfits.first
  rw [Tree.locate_child_eq hvalid,
    Tree.checkPath_child_of_size hvalid (by decide) (length_le_of_mem_fixedNames hn) hfirst,
    directory_of_missing h]
  rfl

theorem exec_sweepAll_of_notFound (dryRun : Bool)
    (h : ∀ p ∈ paths, t.locate cwd p = .error .notFound) :
    (sweepAll cwd dryRun paths).exec t = (.ok [], t) := by
  induction paths with
  | nil => rfl
  | cons p paths ih =>
    rw [List.forall_mem_cons] at h
    have hsweep : (sweep cwd dryRun p).exec t = (.ok none, t) := by
      rw [exec_sweep, h.1]
      exact if_pos rfl
    unfold sweepAll
    rw [Edit.exec_bind_of_ok hsweep, Edit.exec_bind_of_ok (ih h.2)]
    rfl

/-- Cleaning does nothing where the project directory is missing. -/
theorem run_of_missing (dryRun : Bool) (h : Missing t cwd c.root) (hfits : Fits t cwd c.root) :
    (run cwd c dryRun).exec t = (.ok ⟨[], 0, dryRun⟩, t) := by
  have hfixed := exec_sweepAll_of_notFound dryRun (locate_of_missing h hfits)
  have hsearch : (Edit.inspect (caches cwd c.root)).exec t = (.ok [], t) := by
    rw [Edit.exec_inspect, caches_of_notFound (resolve_of_missing h)]
  unfold run
  rw [Edit.exec_bind_of_ok hfixed, Edit.exec_bind_of_ok hsearch]
  rfl

/-- **Cleaning that fails has done nothing.** It fails exactly if the look-up of the first place is
refused. It tells that place and the reason then, and leaves the tree as it was. Where the project
directory is missing, it succeeds and finds nothing. -/
theorem run_fails_iff (dryRun : Bool) (hfits : Fits t cwd c.root) :
    ((∃ e t', (run cwd c dryRun).exec t = (.error e, t')) ↔
      ∃ e, t.locate cwd (c.root.child ".local-ci") = .error e ∧ e ≠ .notFound) ∧
    (∀ e t', (run cwd c dryRun).exec t = (.error e, t') → t' = t ∧ ∃ cause,
      e = .delete (c.root.child ".local-ci") cause ∧
        t.locate cwd (c.root.child ".local-ci") = .error cause) ∧
    (Missing t cwd c.root → (run cwd c dryRun).exec t = (.ok ⟨[], 0, dryRun⟩, t)) := by
  have hfails {e : Error} {t' : Tree} (hrun : (run cwd c dryRun).exec t = (.error e, t')) :
      ∃ cause, t.locate cwd (c.root.child Config.localCiName) = .error cause ∧
        cause ≠ .notFound ∧ e = .delete (c.root.child Config.localCiName) cause ∧ t' = t := by
    by_cases href : t.Refuses cwd (c.root.child Config.localCiName)
    · obtain ⟨cause, hlocate, hcause⟩ := href
      rw [run_of_refused dryRun hlocate hcause] at hrun
      cases hrun
      exact ⟨cause, hlocate, hcause, rfl, rfl⟩
    · obtain ⟨report, t₁, hok⟩ := run_ok_of_not_refuses dryRun href hfits
      rw [hok] at hrun
      cases hrun
  refine ⟨⟨fun ⟨e, t', hrun⟩ => ?_, fun ⟨cause, hlocate, hcause⟩ => ?_⟩, fun e t' hrun => ?_,
    fun h => run_of_missing dryRun h hfits⟩
  · obtain ⟨cause, hlocate, hcause, -⟩ := hfails hrun
    exact ⟨cause, hlocate, hcause⟩
  · exact ⟨_, _, run_of_refused dryRun hlocate hcause⟩
  · obtain ⟨cause, hlocate, -, he, ht⟩ := hfails hrun
    exact ⟨ht, cause, he, hlocate⟩

/-- A project that is reached through a link in its own directory for build output. -/
def knotted : Tree :=
  Tree.placeAll [] [.link ⟨"/w/target/back"⟩ ⟨".."⟩, .file ⟨"/w/m.pyc"⟩ [0] 0o644] Tree.empty

/-- Cleaning takes its own way to the project away, and does not fail for that. -/
theorem run_fails_iff_knotted : Fits knotted [] ⟨"w/target/back"⟩ ∧
    ∃ report t', (run [] (Config.withRoot ⟨"w/target/back"⟩) false).exec knotted =
      (.ok report, t') ∧
      report.removed = [⟨"w/target/back/target"⟩] ∧
      t'.get? ["w", "m.pyc"] = some (.file [0] 0o644) := by
  have hresolve : knotted.resolve [] ⟨"w/target/back"⟩ = .ok ⟨["w"], 39⟩ := by decide +kernel
  have hfits : Fits knotted [] (Config.withRoot ⟨"w/target/back"⟩).root := by
    refine ⟨by decide +kernel, fun pos hpos => ?_⟩
    obtain rfl := Except.ok.inj (hresolve.symm.trans hpos)
    decide +kernel
  have hfirst : knotted.locate [] ⟨"w/target/back/.local-ci"⟩ = .error .notFound := by
    decide +kernel
  obtain ⟨hiff, -, -⟩ := run_fails_iff false hfits
  refine ⟨hfits, ?_⟩
  have hremoved : ((run [] (Config.withRoot ⟨"w/target/back"⟩) false).exec
      knotted).1.toOption.map Report.removed = some [⟨"w/target/back/target"⟩] := by
    decide +kernel
  have hkept : ((run [] (Config.withRoot ⟨"w/target/back"⟩) false).exec knotted).2.get?
      ["w", "m.pyc"] = some (.file [0] 0o644) := by
    decide +kernel
  cases hrun : (run [] (Config.withRoot ⟨"w/target/back"⟩) false).exec knotted with
  | mk result t' =>
    rw [hrun] at hremoved hkept
    cases result with
    | error e =>
      obtain ⟨cause, hlocate, hcause⟩ := hiff.mp ⟨e, t', hrun⟩
      exact absurd (Except.error.inj (hlocate.symm.trans hfirst)) hcause
    | ok report => exact ⟨report, t', rfl, Option.some.inj hremoved, hkept⟩

end Zipship.Clean
