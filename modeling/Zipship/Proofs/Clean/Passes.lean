import Zipship.Proofs.Clean.Sweep
import Zipship.Proofs.Clean.Walk
import Zipship.Proofs.Tree.Spelled

/-!
# The two passes of a run

A run sweeps the fixed places first and then what the search finds. A real run has removed the fixed
places by the time it searches, and a dry run still sees them and has to pass them over. Since the
search never looks into them, both come to the same (`cachesBelow_congr`): as long as the operating
system takes the paths (`Passable`), a run lists what stands at its `targets`, with the sizes that
the tree has at the start, and a real one leaves the tree without them (`exec_run`).
-/

namespace Zipship.Clean

variable {t t' t₁ : Tree} {cwd root : Loc} {c : Config} {report : Report} {dryRun : Bool}
  {names : List Name} {ls : List (List Name)} {name : Name} {node : Node}

/-! ## The search between the passes -/

/-- What is not in a fixed place looks the same when those are gone. -/
theorem get?_of_fixed_gone
    (hview : ∀ k, t₁.get? k = if ∃ q ∈ fixedNames.map fun n => [n], root ++ q <+: k then none
      else t.get? k) (hnames : ∀ q, q <+: names → ¬ IsFixed q) :
    t₁.get? (root ++ names) = t.get? (root ++ names) := by
  rw [hview, if_neg]
  rintro ⟨q, hq, hpre⟩
  obtain ⟨fixed, hmem, rfl⟩ := List.mem_map.mp hq
  exact hnames _ ((List.prefix_append_right_inj root).mp hpre) ⟨fixed, hmem, rfl⟩

/-- The search does not miss the fixed places. -/
theorem cachesBelow_congr
    (hview : ∀ k, t₁.get? k = if ∃ q ∈ fixedNames.map fun n => [n], root ++ q <+: k then none
      else t.get? k) : cachesBelow t₁ root = cachesBelow t root := by
  have hcache {c : List Name} (hc : ∀ q, q <+: c → ¬ IsFixed q) :
      IsCache t₁ root c ↔ IsCache t root c := by
    simp only [IsCache, get?_of_fixed_gone hview hc]
  have hlive {c : List Name} (h : IsCache t₁ root c) : ∀ q, q <+: c → ¬ IsFixed q := by
    rintro q hq ⟨fixed, hmem, rfl⟩
    obtain ⟨above, name, node, rfl, hget, -⟩ := h
    rw [hview, if_pos ⟨[fixed], List.mem_map_of_mem hmem,
      (List.prefix_append_right_inj root).mpr hq⟩] at hget
    cases hget
  refine cachesBelow_eq fun c => ?_
  rw [mem_cachesBelow, mem_cachesBelow]
  constructor
  · rintro ⟨hc, hbefore⟩
    have hfree := hlive hc
    refine ⟨(hcache hfree).mp hc, fun q hq hnil hne => ⟨fun h => ?_, hfree q hq⟩⟩
    exact (hbefore q hq hnil hne).1 ((hcache fun p hp => hfree p (hp.trans hq)).mpr h)
  · rintro ⟨hc, hbefore⟩
    have hfree : ∀ q, q <+: c → ¬ IsFixed q := by
      rintro q hq hfixed
      by_cases hne : q = c
      · exact hc.not_isFixed (hne ▸ hfixed)
      · exact (hbefore q hq hfixed.ne_nil hne).2 hfixed
    refine ⟨(hcache hfree).mpr hc, fun q hq hnil hne => ⟨fun h => ?_, hfree q hq⟩⟩
    exact (hbefore q hq hnil hne).1 ((hcache fun p hp => hfree p (hp.trans hq)).mp h)

/-- Nothing is gone into that was not there before the fixed places were gone. -/
theorem enteredBelow_of_fixed_gone
    (hview : ∀ k, t₁.get? k = if ∃ q ∈ fixedNames.map fun n => [n], root ++ q <+: k then none
      else t.get? k) (h : names ∈ enteredBelow t₁ root) : names ∈ enteredBelow t root := by
  obtain ⟨hne, hdir, hentered⟩ := mem_enteredBelow.mp h
  rw [get?_of_fixed_gone hview (not_isFixed_of_isEntered hentered)] at hdir
  exact mem_enteredBelow.mpr ⟨hne, hdir, hentered⟩

/-! ## Where a run looks -/

/-- What is found is not inside anything else that is found. -/
theorem cachesBelow_apart : (cachesBelow t root).Pairwise fun a b => ¬ a <+: b ∧ ¬ b <+: a := by
  refine cachesBelow_pairwise.imp_of_mem fun {a b} ha hb hab => ?_
  have hne : a ≠ b := by
    rintro rfl
    exact List.lex_irrefl List.lt_irrefl _ hab
  obtain ⟨hca, htop⟩ := mem_cachesBelow.mp ha
  obtain ⟨hcb, htop'⟩ := mem_cachesBelow.mp hb
  exact ⟨fun hpre => (htop' a hpre hca.ne_nil hne).1 hca,
    fun hpre => (htop b hpre hcb.ne_nil hne.symm).1 hcb⟩

/-- Where a run looks, from the project directory: the fixed places, then what the search finds. -/
def targets (t : Tree) (root : Loc) : List (List Name) :=
  (fixedNames.map fun n => [n]) ++ cachesBelow t root

theorem mem_targets : names ∈ targets t root ↔ IsFixed names ∨ names ∈ cachesBelow t root := by
  simp only [targets, List.mem_append, List.mem_map, IsFixed, eq_comm]

theorem ne_nil_of_mem_targets (h : names ∈ targets t root) : names ≠ [] :=
  (mem_targets.mp h).elim IsFixed.ne_nil fun hc => (mem_cachesBelow.mp hc).1.ne_nil

theorem targets_of_cachesBelow_eq_nil (h : cachesBelow t root = []) :
    targets t root = fixedNames.map fun n => [n] := by
  rw [targets, h, List.append_nil]

/-- What the search finds is neither in a fixed place nor above one. -/
theorem apart_of_mem_cachesBelow (hname : name ∈ fixedNames) (h : names ∈ cachesBelow t root) :
    ¬ [name] <+: names ∧ ¬ names <+: [name] := by
  obtain ⟨hcache, hbefore⟩ := mem_cachesBelow.mp h
  have hfixed : IsFixed [name] := ⟨name, hname, rfl⟩
  have hne : [name] ≠ names := by
    rintro rfl
    exact hcache.not_isFixed hfixed
  constructor
  · intro hpre
    exact (hbefore [name] hpre hfixed.ne_nil hne).2 hfixed
  · intro hpre
    exact hne (hpre.eq_of_length_le (List.length_pos_iff.mpr hcache.ne_nil)).symm

theorem targets_apart : (targets t root).Pairwise fun a b => ¬ a <+: b ∧ ¬ b <+: a := by
  refine List.pairwise_append.mpr ⟨by decide, cachesBelow_apart, ?_⟩
  intro a ha b hb
  obtain ⟨name, hname, rfl⟩ := List.mem_map.mp ha
  exact apart_of_mem_cachesBelow hname hb

/-- The operating system takes the paths of all that a run needs: of what it removes, and of the
directories that it searches. -/
structure Passable (t : Tree) (root : Loc) (base : Path) : Prop where
  target : ∀ names ∈ targets t root, Tree.checkPath (base.descend names) = .ok ⟨⟩
  entered : ∀ names ∈ enteredBelow t root, Tree.checkPath (base.descend names) = .ok ⟨⟩

/-- What a run reports when it finds what stands at the targets. -/
def expected (t : Tree) (root : Loc) (base : Path) (dryRun : Bool) : Report :=
  ⟨(present t root base (targets t root)).map Prod.fst,
    (present t root base (targets t root)).foldr (fun e freed => e.2 + freed) 0, dryRun⟩

theorem spells_root (hget : t.get? root = some node) (hroot : c.root = root.path) :
    c.root.Spells root := by
  rw [hroot]
  exact Loc.spells_path (Tree.isPiece_of_get? hget)

/-! ## What a run comes to -/

section Run

variable (hdir : t.get? root = some .dir) (hroot : c.root = root.path)

include hdir

theorem reachable_of_mem_targets (h : names ∈ targets t root) : Reachable t (root ++ names) := by
  rcases mem_targets.mp h with ⟨name, hname, rfl⟩ | hcache
  · have hvalid : ∀ n ∈ fixedNames, n.valid = true := by decide
    exact ⟨root, name, rfl, hdir, hvalid name hname⟩
  · obtain ⟨-, -, node, -, hget, -⟩ := (mem_cachesBelow.mp hcache).1
    refine reachable_of_isSome (Option.isSome_of_mem hget) fun hnil => ?_
    exact ne_nil_of_mem_targets h (List.append_eq_nil_iff.mp hnil).2

theorem isPiece_of_mem_targets (h : names ∈ targets t root) : ∀ n ∈ names, n.IsPiece := by
  obtain ⟨dir, last, heq, hget, hlast⟩ := reachable_of_mem_targets hdir h
  intro n hn
  have hmem : n ∈ dir ++ [last] := heq ▸ List.mem_append_right root hn
  rcases List.mem_append.mp hmem with hn | hn
  · exact Tree.isPiece_of_get? hget n hn
  · rw [List.mem_singleton.mp hn]
    exact (Name.isEntry_of_valid hlast).toIsPiece

/-- The project directory is still there when the fixed places are gone. -/
theorem get?_root_of_fixed_gone (hview : ∀ k, t'.get? k =
      if ∃ q ∈ fixedNames.map fun n => [n], root ++ q <+: k then none else t.get? k) :
    t'.get? root = some .dir := by
  have hkept : t'.get? (root ++ []) = t.get? (root ++ []) :=
    get?_of_fixed_gone hview fun q hq hf => hf.ne_nil (List.prefix_nil.mp hq)
  rwa [List.append_nil, hdir] at hkept

include hroot

/-- Some of the targets are swept, in a tree that looks the same there. -/
theorem exec_sweepAll_targets (hls : ls.Sublist (targets t root))
    (hcheck : ∀ names ∈ ls, Tree.checkPath (c.root.descend names) = .ok ⟨⟩)
    (hsame : ∀ names ∈ ls, Tree.SameAround t t' (root ++ names)) :
    (sweepAll cwd dryRun (ls.map c.root.descend)).exec t' =
      (.ok (present t root c.root ls), if dryRun then t' else t'.eraseAll root ls) := by
  rw [← present_congr hsame]
  refine exec_sweepAll (spells_root hdir hroot) hcheck (fun names hnames => ?_)
    (fun names hnames => ?_) (targets_apart.sublist hls)
  · exact isPiece_of_mem_targets hdir (hls.subset hnames)
  · exact (reachable_of_mem_targets hdir (hls.subset hnames)).of_sameAround (hsame names hnames)

/-- The first pass. -/
theorem exec_sweepAll_fixed
    (hcheck : ∀ n ∈ fixedNames, Tree.checkPath (c.root.child n) = .ok ⟨⟩) :
    (sweepAll cwd dryRun (fixedTargets c.root)).exec t =
      (.ok (present t root c.root (fixedNames.map fun n => [n])),
        if dryRun then t else t.eraseAll root (fixedNames.map fun n => [n])) :=
  exec_sweepAll_targets hdir hroot (List.sublist_append_left _ _) (List.forall_mem_map.mpr hcheck)
    fun names _ => .refl t (root ++ names)

/-- The project directory is found under its path as long as it is there. -/
theorem resolve_root (hcheck : ∀ n ∈ fixedNames, Tree.checkPath (c.root.child n) = .ok ⟨⟩)
    (ht' : t'.get? root = some .dir) : t'.resolve cwd c.root = .ok ⟨root, Tree.maxLinks⟩ := by
  have hspell := spells_root hdir hroot
  have hcheckRoot : Tree.checkPath c.root = .ok ⟨⟩ :=
    Tree.checkPath_of_child hspell.bytes_ne ⟨by decide, by decide⟩
      (hcheck Config.targetName (by decide))
  exact Tree.resolve_spelled hspell hcheckRoot ht' (by simp)

/-- The search finds the same, whether the fixed places are gone or have to be passed over. -/
theorem caches_after_fixed
    (hcheck : ∀ n ∈ fixedNames, Tree.checkPath (c.root.child n) = .ok ⟨⟩)
    (hentered : ∀ names ∈ enteredBelow t root, Tree.checkPath (c.root.descend names) = .ok ⟨⟩) :
    caches cwd c.root (if dryRun then t else t.eraseAll root (fixedNames.map fun n => [n])) =
      .ok ((cachesBelow t root).map c.root.descend) := by
  have hsearch {s : Tree} (hs : s.get? root = some .dir)
      (hsub : ∀ names ∈ enteredBelow s root, names ∈ enteredBelow t root) :
      caches cwd c.root s = .ok ((cachesBelow s root).map c.root.descend) :=
    (caches_eq_ok_iff (resolve_root hdir hroot hcheck hs)).mpr
      ⟨rfl, fun names hnames => hentered names (hsub names hnames)⟩
  cases dryRun with
  | true => exact hsearch hdir fun _ => id
  | false =>
    have hview (k : Loc) : (t.eraseAll root (fixedNames.map fun n => [n])).get? k =
        if ∃ q ∈ fixedNames.map fun n => [n], root ++ q <+: k then none else t.get? k :=
      Tree.get?_eraseAll (by decide)
    rw [if_neg Bool.false_ne_true, hsearch (get?_root_of_fixed_gone hdir hview)
      (fun names => enteredBelow_of_fixed_gone hview), cachesBelow_congr hview]

/-- **What a run comes to**, where the operating system takes the paths: it lists what stands at the
targets, and they are gone afterwards unless the run is dry. -/
theorem exec_run (hpass : Passable t root c.root) :
    (run cwd c dryRun).exec t = (.ok (expected t root c.root dryRun),
      if dryRun then t else t.eraseAll root (targets t root)) := by
  have hcheckFixed : ∀ n ∈ fixedNames, Tree.checkPath (c.root.child n) = .ok ⟨⟩ := fun n hn =>
    hpass.target [n] (mem_targets.mpr (Or.inl ⟨n, hn, rfl⟩))
  have hsame : ∀ names ∈ cachesBelow t root, Tree.SameAround t
      (if dryRun then t else t.eraseAll root (fixedNames.map fun n => [n])) (root ++ names) := by
    intro names hnames
    cases dryRun with
    | true => exact .refl t _
    | false =>
      refine .eraseAll (List.forall_mem_map.mpr fun name hname => ?_)
      exact apart_of_mem_cachesBelow hname hnames
  have hswept : (sweepAll cwd dryRun ((cachesBelow t root).map c.root.descend)).exec
      (if dryRun then t else t.eraseAll root (fixedNames.map fun n => [n])) = _ :=
    exec_sweepAll_targets hdir hroot (List.sublist_append_right _ _)
      (fun names hnames => hpass.target names (List.mem_append_right _ hnames)) hsame
  unfold run
  rw [Edit.exec_bind_of_ok (exec_sweepAll_fixed hdir hroot hcheckFixed), Edit.exec_bind,
    Edit.exec_inspect, caches_after_fixed hdir hroot hcheckFixed hpass.entered]
  simp only
  rw [Edit.exec_bind_of_ok hswept, Edit.exec_pure, ← present_append]
  cases dryRun with
  | true => rfl
  | false => exact congrArg (Prod.mk _) (Tree.eraseAll_append _ _).symm

/-! ## Runs that succeed -/

variable (h : (run cwd c false).exec t = (.ok report, t'))

include h

/-- A run that succeeds has come upon no path that the operating system refuses. -/
theorem passable_of_run_ok : Passable t root c.root := by
  have hbytes : ∀ names ∈ targets t root, (c.root.descend names).bytes ≠ [] := fun names hnames =>
    ((spells_root hdir hroot).descend (isPiece_of_mem_targets hdir hnames)).bytes_ne
  unfold run at h
  obtain ⟨fixed, t₁, hfixed, hsearch⟩ := Edit.exec_bind_ok h
  obtain ⟨paths, t₂, hpaths, hremove⟩ := Edit.exec_bind_ok hsearch
  obtain ⟨hpaths, rfl⟩ := Edit.exec_inspect_ok hpaths
  obtain ⟨swept, t₃, hswept, -⟩ := Edit.exec_bind_ok hremove
  have hcheckFixed : ∀ n ∈ fixedNames, Tree.checkPath (c.root.child n) = .ok ⟨⟩ := by
    refine List.forall_mem_map.mp (checkPath_of_sweepAll (List.forall_mem_map.mpr ?_) hfixed)
    exact fun n hn => hbytes [n] (mem_targets.mpr (Or.inl ⟨n, hn, rfl⟩))
  rw [exec_sweepAll_fixed hdir hroot hcheckFixed] at hfixed
  obtain ⟨-, rfl⟩ := Prod.mk.inj hfixed
  have hview (k : Loc) : (t.eraseAll root (fixedNames.map fun n => [n])).get? k =
      if ∃ q ∈ fixedNames.map fun n => [n], root ++ q <+: k then none else t.get? k :=
    Tree.get?_eraseAll (by decide)
  rw [if_neg Bool.false_ne_true] at hpaths
  obtain ⟨rfl, hentered⟩ := (caches_eq_ok_iff (resolve_root hdir hroot hcheckFixed
    (get?_root_of_fixed_gone hdir hview))).mp hpaths
  rw [cachesBelow_congr hview] at hswept
  have hcheckCaches : ∀ names ∈ cachesBelow t root,
      Tree.checkPath (c.root.descend names) = .ok ⟨⟩ := by
    refine List.forall_mem_map.mp (checkPath_of_sweepAll (List.forall_mem_map.mpr ?_) hswept)
    exact fun names hnames => hbytes names (List.mem_append_right _ hnames)
  refine ⟨fun names hnames => ?_, fun names hnames => hentered names ?_⟩
  · rcases mem_targets.mp hnames with ⟨n, hn, rfl⟩ | hcache
    · exact hcheckFixed n hn
    · exact hcheckCaches names hcache
  · obtain ⟨hne, hget, hentered⟩ := mem_enteredBelow.mp hnames
    rw [← get?_of_fixed_gone hview (not_isFixed_of_isEntered hentered)] at hget
    exact mem_enteredBelow.mpr ⟨hne, hget, hentered⟩

/-- What a run that succeeds lists, and what it leaves. -/
theorem run_ok : report.removed = (((fixedNames.map fun n => [n]).filter fun names =>
        (t.get? (root ++ names)).isSome) ++ cachesBelow t root).map c.root.descend ∧
      ∀ k, ((∃ q, (IsFixed q ∨ q ∈ cachesBelow t root) ∧ root ++ q <+: k) → t'.get? k = none) ∧
        ((∀ q, IsFixed q ∨ q ∈ cachesBelow t root → ¬ root ++ q <+: k) →
          t'.get? k = t.get? k) := by
  rw [exec_run hdir hroot (passable_of_run_ok hdir hroot h)] at h
  obtain ⟨hreport, rfl⟩ := Prod.mk.inj h
  obtain rfl := Except.ok.inj hreport
  have hfound : ((cachesBelow t root).filter fun names => (t.get? (root ++ names)).isSome) =
      cachesBelow t root := by
    refine List.filter_eq_self.mpr fun names hnames => ?_
    obtain ⟨-, -, node, -, hget, -⟩ := (mem_cachesBelow.mp hnames).1
    exact Option.isSome_of_mem hget
  constructor
  · show (present t root c.root (targets t root)).map Prod.fst = _
    rw [map_fst_present, targets, List.filter_append, hfound]
  · intro k
    rw [if_neg Bool.false_ne_true, Tree.get?_eraseAll fun names => ne_nil_of_mem_targets]
    constructor
    · rintro ⟨q, hq, hpre⟩
      rw [if_pos ⟨q, mem_targets.mpr hq, hpre⟩]
    · intro hkept
      rw [if_neg]
      rintro ⟨q, hq, hpre⟩
      exact hkept q (mem_targets.mp hq) hpre

end Run

end Zipship.Clean
