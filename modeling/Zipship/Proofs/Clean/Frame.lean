import Zipship.Proofs.Clean.Exact
import Zipship.Proofs.Tree.Confined
import Zipship.Proofs.Tree.Invariant
import Zipship.Proofs.Tree.Unlinked

/-!
# What cleaning never touches

Cleaning may fail at any place, and what it removed until then is gone. Whatever it has come to, it
has removed nothing but transient artifacts and has added nothing (`Pruned`, `run_prunes`).

The paths that are swept may have been made from an earlier tree than the one in which they are
looked up. What the proof needs of them is that they still lead where they are spelled (`Aims`).
They do when they are canonical, since nothing that is swept in between puts a link on their way
(`Pruned.straight`), and however they are spelled when there are no links (`aims_of_linkFree`).
-/

namespace Zipship.Clean

variable {t t' s s' : Tree} {cwd root l k : Loc} {c : Config} {names : List Name} {node : Node}
  {name : Name} {p : Path} {paths : List Path} {dryRun : Bool} {I : Tree → Prop}

/-- What is transient stays so when more is there. -/
theorem Transient.mono (h : Transient t root l)
    (hsub : ∀ k node, root <+: k → t.get? k = some node → t'.get? k = some node) :
    Transient t' root l := by
  cases h with
  | fixed h => exact .fixed h
  | cacheDirectory h => exact .cacheDirectory (hsub _ _ (List.prefix_append _ _) h)
  | compiled h hnode hstem hextension =>
    exact .compiled (hsub _ _ (List.prefix_append _ _) h) hnode hstem hextension

/-- A directory in the project directory is transient by its name alone. -/
theorem not_transient_directory (hget : t.get? (root ++ [name]) = some .dir)
    (hfixed : name ∉ fixedNames) (hcache : name ≠ Name.cacheDirectory) :
    ¬ Transient t root (root ++ [name]) := by
  intro h
  obtain ⟨q, hq, hstop⟩ := stop_of_transient h
  have hne : q ≠ [] := hstop.elim IsFixed.ne_nil IsCache.ne_nil
  obtain rfl : q = [name] := by
    rcases List.prefix_concat_iff.mp (show q <+: [] ++ [name] from hq) with rfl | hnil
    · rfl
    · exact absurd (List.prefix_nil.mp hnil) hne
  rcases hstop with ⟨fixed, hmem, heq⟩ | hstop
  · rw [List.singleton_inj.mp heq] at hfixed
    exact hfixed hmem
  · have hdir : t.get? (root ++ ([] ++ [name])) = some .dir := hget
    exact hcache (by simpa [Node.isBytecode] using (isCache_snoc hdir).mp hstop)

/-- A tree in which nothing but transient artifacts of `t` is missing, and nothing is new. -/
def Pruned (t : Tree) (root : Loc) (t' : Tree) : Prop :=
  ∀ k, t'.get? k = t.get? k ∨ t'.get? k = none ∧ Transient t root k

/-- What is cleaned is not itself transient. -/
theorem not_transient_root : ¬ Transient t root root := by
  intro h
  have hself : Transient t root (root ++ []) := by rwa [List.append_nil]
  obtain ⟨q, hq, hstop⟩ := stop_of_transient hself
  exact hstop.elim IsFixed.ne_nil IsCache.ne_nil (List.prefix_nil.mp hq)

namespace Pruned

theorem refl (t : Tree) (root : Loc) : Pruned t root t := fun _ => Or.inl rfl

theorem get?_eq (h : Pruned t root t') (hkeep : ¬ Transient t root k) : t'.get? k = t.get? k :=
  (h k).resolve_right fun hgone => hkeep hgone.2

theorem get?_eq_some (h : Pruned t root t') (hget : t'.get? k = some node) :
    t.get? k = some node := by
  rcases h k with heq | ⟨hnone, -⟩
  · rw [← heq, hget]
  · rw [hnone] at hget
    cases hget

/-- More may be removed where everything is transient. -/
theorem erase (h : Pruned t root t') (hl : l ≠ [])
    (htrans : ∀ k, l <+: k → (t.get? k).isSome → Transient t root k) :
    Pruned t root (t'.erase l) := by
  intro k
  rw [Tree.get?_erase hl]
  by_cases hk : l <+: k
  · rw [if_pos hk]
    cases hget : t.get? k with
    | none => exact Or.inl rfl
    | some node => exact Or.inr ⟨rfl, htrans k hk (Option.isSome_of_mem hget)⟩
  · rw [if_neg hk]
    exact h k

/-- No link comes to stand on a way on which there was none. -/
theorem straight (h : Pruned t root t') (hget : t.get? l = some node)
    (hlink : ∀ target, node ≠ .link target) : t'.Straight l where
  entries := (Tree.Straight.of_get? hget hlink).entries
  unlinked q hq target hlinked :=
    (Tree.Straight.of_get? hget hlink).unlinked q hq target (h.get?_eq_some hlinked)

end Pruned

/-- Of what is in the project directory, nothing but transient artifacts is missing in the second
tree, and nothing is new there. -/
def PrunedBelow (t : Tree) (root : Loc) (t' : Tree) : Prop :=
  ∀ k, root <+: k → t'.get? k = t.get? k ∨ t'.get? k = none ∧ Transient t root k

theorem Pruned.below (h : Pruned t root t') : PrunedBelow t root t' := fun k _ => h k

namespace PrunedBelow

theorem congr (h : PrunedBelow t root t') (hs : ∀ k, root <+: k → s.get? k = t.get? k)
    (hs' : ∀ k, root <+: k → s'.get? k = t'.get? k) : PrunedBelow s root s' := by
  intro k hk
  rw [hs k hk, hs' k hk]
  exact (h k hk).imp_right fun ⟨hnone, htrans⟩ =>
    ⟨hnone, htrans.mono fun l node hl hget => by rwa [hs l hl]⟩

theorem get?_eq_some (h : PrunedBelow t root t') (hl : root <+: l)
    (hget : t'.get? l = some node) : t.get? l = some node := by
  rcases h l hl with heq | ⟨hnone, -⟩
  · rw [← heq, hget]
  · rw [hnone] at hget
    cases hget

end PrunedBelow

theorem keeps_sweepAll
    (h : ∀ p ∈ paths, Edit.Keeps I (sweep cwd dryRun p) fun _ => True) :
    Edit.Keeps I (sweepAll cwd dryRun paths) fun _ => True := by
  induction paths with
  | nil => exact Edit.keeps_pure trivial
  | cons p paths ih =>
    refine (h p List.mem_cons_self).bind fun _ _ => ?_
    exact (ih fun q hq => h q (List.mem_cons_of_mem _ hq)).bind fun _ _ => Edit.keeps_pure trivial

/-! ## Where the paths of a run lead -/

/-- The paths of a run lead to where they are spelled, in every tree that the run comes through. -/
structure Aims (t : Tree) (root cwd : Loc) (c : Config) : Prop where
  search : ∀ t' pos, Pruned t root t' → t'.resolve cwd c.root = .ok pos → pos.loc = root
  sweep : ∀ t' names l, Pruned t root t' → IsFixed names ∨ IsCache t root names →
    t'.locate cwd (c.root.descend names) = .ok l → l = root ++ names

namespace Aims

/-- A sweep at a place that the search stops at removes only what is transient. -/
theorem keeps_sweep (h : Aims t root cwd c) (hstop : IsFixed names ∨ IsCache t root names) :
    Edit.Keeps (Pruned t root) (Clean.sweep cwd dryRun (c.root.descend names)) fun _ => True := by
  intro t' hpruned
  refine ⟨?_, fun _ _ => trivial⟩
  rw [exec_sweep]
  cases hlocate : t'.locate cwd (c.root.descend names) with
  | error e =>
    by_cases he : e = .notFound
    · simpa only [he, if_true] using hpruned
    · simpa only [if_neg he] using hpruned
  | ok l =>
    cases dryRun with
    | true => exact hpruned
    | false =>
      have hne : root ++ names ≠ [] := fun hnil =>
        hstop.elim IsFixed.ne_nil IsCache.ne_nil (List.append_eq_nil_iff.mp hnil).2
      rw [h.sweep t' names l hpruned hstop hlocate]
      refine hpruned.erase hne fun k hk hsome => ?_
      obtain ⟨rest, rfl⟩ := hk
      rw [List.append_assoc] at hsome ⊢
      exact hstop.elim (fun hf => transient_of_isFixed hf (List.prefix_append _ _))
        fun hc => transient_of_isCache hc (List.prefix_append _ _) hsome

/-- What is found in a tree from which only transient artifacts are missing was there before. -/
theorem caches_pruned (h : Aims t root cwd c) (hpruned : Pruned t root t')
    (hpaths : caches cwd c.root t' = .ok paths) :
    ∀ p ∈ paths, ∃ names, IsCache t root names ∧ p = c.root.descend names := by
  cases hresolve : t'.resolve cwd c.root with
  | error e =>
    rw [caches_eq_nil hresolve hpaths]
    simp
  | ok pos =>
    obtain ⟨rfl, -⟩ := (caches_eq_ok_iff hresolve).mp hpaths
    intro p hp
    obtain ⟨names, hnames, rfl⟩ := List.mem_map.mp hp
    rw [h.search t' pos hpruned hresolve] at hnames
    obtain ⟨above, name, leaf, hsplit, hleaf, hname⟩ := (mem_cachesBelow.mp hnames).1
    exact ⟨names, ⟨above, name, leaf, hsplit, hpruned.get?_eq_some hleaf, hname⟩, rfl⟩

/-- A run removes nothing but transient artifacts, if its paths lead to where they are spelled. -/
theorem prunes (h : Aims t root cwd c) : Pruned t root ((run cwd c dryRun).exec t).2 := by
  have hfixed : Edit.Keeps (Pruned t root) (sweepAll cwd dryRun (fixedTargets c.root))
      fun _ => True := by
    refine keeps_sweepAll fun p hp => ?_
    obtain ⟨name, hname, rfl⟩ := List.mem_map.mp hp
    have hsweep : Edit.Keeps (Pruned t root) (Clean.sweep cwd dryRun (c.root.descend [name]))
        fun _ => True := h.keeps_sweep (Or.inl ⟨name, hname, rfl⟩)
    exact hsweep
  have hsearch : Edit.Keeps (Pruned t root) (Edit.inspect (caches cwd c.root)) fun paths =>
      ∀ p ∈ paths, ∃ names, IsCache t root names ∧ p = c.root.descend names :=
    Edit.keeps_inspect fun _ _ hpruned => h.caches_pruned hpruned
  have hrun : Edit.Keeps (Pruned t root) (run cwd c dryRun) fun _ => True := by
    refine hfixed.bind fun _ _ => hsearch.bind fun paths hpaths => ?_
    refine (keeps_sweepAll fun p hp => ?_).bind fun _ _ => Edit.keeps_pure trivial
    obtain ⟨names, hcache, rfl⟩ := hpaths p hp
    exact h.keeps_sweep (Or.inr hcache)
  exact hrun.exec (.refl t root)

end Aims

section Run

variable (hget : t.get? root = some node) (hlink : ∀ target, node ≠ .link target)

include hget hlink

/-- What the search stops at is an entry of something that is not a link. -/
theorem exists_above (h : IsFixed names ∨ IsCache t root names) :
    ∃ above name, names = above ++ [name] ∧ name.IsEntry ∧
      ∃ node, t.get? (root ++ above) = some node ∧ ∀ target, node ≠ .link target := by
  rcases h with ⟨name, hmem, rfl⟩ | ⟨above, name, leaf, rfl, hleaf, -⟩
  · have hvalid : ∀ n ∈ fixedNames, n.valid = true := by decide
    refine ⟨[], name, rfl, Name.isEntry_of_valid (hvalid name hmem), node, ?_, hlink⟩
    rwa [List.append_nil]
  · rw [← List.append_assoc] at hleaf
    obtain ⟨hdir, hname⟩ := Tree.parent_of_get? hleaf
    exact ⟨above, name, rfl, Name.isEntry_of_valid hname, .dir, hdir, by simp⟩

/-- Canonical paths lead to where they are spelled: the way there is real. -/
theorem aims_of_get? (hroot : c.root = root.path) : Aims t root cwd c where
  search _ _ hpruned hresolve :=
    (hpruned.straight hget hlink).loc_of_resolve (spells_root hget hroot) hresolve
  sweep t' names l hpruned hstop hlocate := by
    obtain ⟨above, name, rfl, hname, node, hnode, hplain⟩ := exists_above hget hlink hstop
    have habove : ∀ n ∈ above, n.IsPiece := fun n hn =>
      Tree.isPiece_of_get? hnode n (List.mem_append_right _ hn)
    have hspell := ((spells_root hget hroot).descend habove).child hname.toIsPiece
    rw [Path.descend_snoc] at hlocate
    rw [← List.append_assoc]
    exact (hpruned.straight hnode hplain).eq_of_locate hspell hname hlocate

/-- **Cleaning removes nothing but transient artifacts**, however it ends. -/
theorem run_prunes (hroot : c.root = root.path) :
    Pruned t root ((run cwd c dryRun).exec t).2 :=
  (aims_of_get? hget hlink hroot).prunes

end Run

/-- Where there are no links, every path leads to where it is spelled, if it leads anywhere. -/
theorem aims_of_linkFree (h : t.LinkFree) : Aims t (c.root.lexical cwd) cwd c where
  search _ _ hpruned hresolve :=
    (h.of_subset fun _ _ => hpruned.get?_eq_some).loc_of_resolve hresolve
  sweep t' names l hpruned hstop hlocate := by
    have hentry : ∀ n ∈ names, n.IsEntry := by
      rcases hstop with ⟨name, hname, rfl⟩ | ⟨-, -, leaf, -, hleaf, -⟩
      · have hvalid : ∀ n ∈ fixedNames, n.valid = true := by decide
        simpa using Name.isEntry_of_valid (hvalid name hname)
      · exact fun n hn => Name.isEntry_of_valid
          (Tree.valid_of_get? hleaf n (List.mem_append_right _ hn))
    rw [(h.of_subset fun _ _ => hpruned.get?_eq_some).loc_of_locate hlocate]
    exact Path.lexical_append (Path.components_descend hentry)

end Zipship.Clean
