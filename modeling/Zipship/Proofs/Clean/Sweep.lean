import Zipship.Clean.Run
import Zipship.Proofs.Tree.Apart

/-!
# What sweeping removes

Each sweep removes one place with everything below it, if something is there. Swept one after
another, places of which none is inside another do not get in each other's way: what was there at
the start is what is listed, with the size that it had then, and in a dry run, where nothing is
removed, the list is the same (`exec_sweepAll`).
-/

namespace Zipship

theorem Tree.SameAround.sizeAt_eq {t t' : Tree} {p : Path} {l : Loc} (h : SameAround t t' l) :
    t'.sizeAt p l = t.sizeAt p l := by
  unfold sizeAt
  rw [h.get?_eq]
  split
  · next hdir => exact bytesBelow_congr hdir fun k hk => h k (Or.inr hk)
  · rfl
  · rfl

namespace Clean

variable {t t' : Tree} {cwd root l : Loc} {base p : Path}
  {ls : List (List Name)} {dryRun : Bool} {paths : List Path} {swept : List (Path × Nat)}

/-! ## One sweep -/

/-- A place whose entry, if there is one, stands in a directory of the tree. -/
def Reachable (t : Tree) (l : Loc) : Prop :=
  ∃ dir n, l = dir ++ [n] ∧ t.get? dir = some .dir ∧ n.valid = true

theorem reachable_of_isSome (h : (t.get? l).isSome) (hl : l ≠ []) : Reachable t l := by
  obtain ⟨node, hnode⟩ := Option.isSome_iff_exists.mp h
  obtain ⟨dir, n, rfl⟩ : ∃ dir n, l = dir ++ [n] :=
    ⟨_, _, (List.dropLast_concat_getLast hl).symm⟩
  obtain ⟨hdir, hn⟩ := Tree.parent_of_get? hnode
  exact ⟨dir, n, rfl, hdir, hn⟩

theorem Reachable.of_sameAround (hr : Reachable t l) (h : Tree.SameAround t t' l) :
    Reachable t' l := by
  obtain ⟨dir, n, rfl, hdir, hn⟩ := hr
  exact ⟨dir, n, rfl, by rw [h dir (Or.inl (List.prefix_append _ _)), hdir], hn⟩

theorem exec_sweep (dryRun : Bool) (p : Path) (t : Tree) :
    (sweep cwd dryRun p).exec t = match t.locate cwd p with
      | .error e => if e = .notFound then (.ok none, t) else (.error (.delete p e), t)
      | .ok l => (.ok (some (t.sizeAt p l)), if dryRun then t else t.erase l) := by
  unfold sweep
  rw [Edit.exec_bind]
  show (Edit.exec (match t.locate cwd p with | .error e => _ | .ok l => _) t) = _
  cases hl : t.locate cwd p with
  | error e =>
    by_cases he : e = .notFound
    · simp only [he, if_true]
      rfl
    · simp only [he, if_false]
      rfl
  | ok l =>
    cases dryRun with
    | true => rfl
    | false =>
      have hremove : Tree.removeAll cwd p t = .ok (⟨⟩, t.erase l) := by
        unfold Tree.removeAll
        rw [hl]
        rfl
      simp only [Bool.false_eq_true, if_false]
      rw [Edit.exec_bind]
      show (Edit.exec (do _; _) t) = _
      rw [Edit.exec_bind, Edit.exec_onError, Edit.exec_step, hremove]
      rfl

/-- A sweep tells the size of what is there, and removes it unless the run is dry. -/
theorem exec_sweep_reachable (hp : p.Spells l) (hc : Tree.checkPath p = .ok ⟨⟩)
    (hr : Reachable t l) : (sweep cwd dryRun p).exec t =
      (.ok ((t.get? l).map fun _ => t.sizeAt p l), if dryRun then t else t.erase l) := by
  obtain ⟨dir, n, rfl, hdir, hn⟩ := hr
  rw [exec_sweep, Tree.locate_spelled hp hc hdir hn]
  cases hget : t.get? (dir ++ [n]) with
  | none => simp [Tree.erase_of_get?_eq_none hget]
  | some node => simp

/-! ## Several sweeps -/

/-- Only paths that the operating system accepts are swept. -/
theorem checkPath_of_sweepAll (hpaths : ∀ p ∈ paths, p.bytes ≠ [])
    (h : (sweepAll cwd dryRun paths).exec t = (.ok swept, t')) :
    ∀ p ∈ paths, Tree.checkPath p = .ok ⟨⟩ := by
  induction paths generalizing t swept t' with
  | nil => simp
  | cons p paths ih =>
    rw [List.forall_mem_cons] at hpaths ⊢
    unfold sweepAll at h
    obtain ⟨size, t₁, hsweep, hmore⟩ := Edit.exec_bind_ok h
    obtain ⟨later, t₂, hlater, -⟩ := Edit.exec_bind_ok hmore
    refine ⟨?_, ih hpaths.2 hlater⟩
    rcases Tree.checkPath_cases hpaths.1 with hc | ⟨e, hc, he⟩
    · exact hc
    · rw [exec_sweep, Tree.locate_refused hc] at hsweep
      simp only [if_neg he] at hsweep
      cases hsweep

/-- What stands at some places below a directory, with the bytes it holds. -/
def present (t : Tree) (root : Loc) (base : Path) (ls : List (List Name)) : List (Path × Nat) :=
  ls.filterMap fun names =>
    (t.get? (root ++ names)).map fun _ =>
      (base.descend names, t.sizeAt (base.descend names) (root ++ names))

theorem present_append (ls ms : List (List Name)) :
    present t root base (ls ++ ms) = present t root base ls ++ present t root base ms :=
  List.filterMap_append

theorem present_congr (h : ∀ names ∈ ls, Tree.SameAround t t' (root ++ names)) :
    present t' root base ls = present t root base ls :=
  List.filterMap_congr fun names hnames => by
    rw [(h names hnames).get?_eq, (h names hnames).sizeAt_eq]

theorem present_eq_nil (h : ∀ names ∈ ls, t.get? (root ++ names) = none) :
    present t root base ls = [] :=
  List.filterMap_eq_nil_iff.mpr fun names hnames => by rw [h names hnames, Option.map_none]

theorem map_fst_present : (present t root base ls).map Prod.fst =
    (ls.filter fun names => (t.get? (root ++ names)).isSome).map base.descend := by
  induction ls with
  | nil => rfl
  | cons names ls ih =>
    unfold present at ih ⊢
    cases hget : t.get? (root ++ names) <;> simp [hget, ih]

/-- Sweeping places of which none is inside another tells what stands there at the start. -/
theorem exec_sweepAll (hbase : base.Spells root)
    (hcheck : ∀ names ∈ ls, Tree.checkPath (base.descend names) = .ok ⟨⟩)
    (hpiece : ∀ names ∈ ls, ∀ n ∈ names, n.IsPiece)
    (hr : ∀ names ∈ ls, Reachable t (root ++ names))
    (hapart : ls.Pairwise fun a b => ¬ a <+: b ∧ ¬ b <+: a) :
    (sweepAll cwd dryRun (ls.map base.descend)).exec t =
      (.ok (present t root base ls), if dryRun then t else t.eraseAll root ls) := by
  induction ls generalizing t with
  | nil => simp [sweepAll, present, Tree.eraseAll]
  | cons names ls ih =>
    rw [List.forall_mem_cons] at hcheck hpiece hr
    rw [List.pairwise_cons] at hapart
    have hfirst : (sweep cwd dryRun (base.descend names)).exec t = _ :=
      exec_sweep_reachable (hbase.descend hpiece.1) hcheck.1 hr.1
    -- whatever the first sweep removes, the places that follow look the same
    have hsame : ∀ later ∈ ls, Tree.SameAround t
        (if dryRun then t else t.erase (root ++ names)) (root ++ later) := by
      intro later hlater
      cases dryRun with
      | true => exact .refl t _
      | false => exact .erase (hapart.1 later hlater)
    have hmore := ih hcheck.2 hpiece.2
      (fun later hlater => (hr.2 later hlater).of_sameAround (hsame later hlater)) hapart.2
    rw [present_congr hsame] at hmore
    rw [List.map_cons, sweepAll, Edit.exec_bind_of_ok hfirst, Edit.exec_bind_of_ok hmore,
      Edit.exec_pure]
    refine Prod.ext ?_ ?_
    · cases hget : t.get? (root ++ names) <;> simp [present, hget]
    · cases dryRun <;> rfl

end Clean

end Zipship
