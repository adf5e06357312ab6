import Mathlib.Data.List.Sort
import Zipship.Proofs.Package.Walk

/-!
# Walks of trees from which something skipped is missing

What a walk skips it neither lists nor looks into. So it is the same walk when that is missing
(`Thinned.ofSource_eq`): the directories that it comes through are the same, and of their entries
only those have gone that added nothing.
-/

namespace Zipship.Package.Walk

variable {t t' : Tree} {cwd base dir : Loc} {source : Path} {skip skip' : List Name → Node → Bool}
  {fuel fuel' : Nat} {above above' : Ancestors} {names : List Name} {name : Name} {node : Node}

/-- Walks that list nothing may be left out. -/
theorem chain_filter {α : Type} {p : α → Bool} {f : α → Walk} {as : List α}
    (h : ∀ a ∈ as, p a = false → f a = empty) : chain ((as.filter p).map f) = chain (as.map f) := by
  induction as with
  | nil => rfl
  | cons a as ih =>
    obtain ⟨hfirst, hmore⟩ := List.forall_mem_cons.mp h
    cases hp : p a with
    | true =>
      rw [List.filter_cons_of_pos hp]
      show (f a).followedBy _ = (f a).followedBy _
      rw [ih hmore]
    | false =>
      rw [List.filter_cons_of_neg (by simp [hp]), ih hmore]
      show _ = (f a).followedBy _
      rw [hfirst hp]
      rfl

/-! ## Where there are no links -/

section Unlinked

variable (hunlinked : ∀ names target, t.get? (base ++ names) ≠ some (.link target))

include hunlinked

theorem look_unlinked (hget : t.get? (base ++ (names ++ [name])) = some node) :
    look t cwd source above (base ++ names) (names ++ [name]) name =
      .ok (base ++ (names ++ [name]), node) := by
  have hlink := hunlinked (names ++ [name])
  rw [← List.append_assoc] at hget hlink ⊢
  unfold look
  rw [hget] at hlink ⊢
  cases node with
  | link target => exact absurd rfl (hlink target)
  | dir | file _ _ | device _ => rfl

/-- What is listed stands where its names lead down to. -/
theorem loc_of_mem_ofDir {v : Visit}
    (hv : v ∈ (ofDir t cwd source skip fuel above names (base ++ names)).visits) :
    v.loc = base ++ v.names := by
  induction fuel generalizing above names v with
  | zero => cases hv
  | succ fuel ih =>
    rw [ofDir_succ] at hv
    have hmem := (visits_chain _).subset hv
    rw [List.flatMap_map, List.mem_flatMap] at hmem
    obtain ⟨name, hname, hmem⟩ := hmem
    rw [Tree.mem_sortedChildren, List.append_assoc] at hname
    obtain ⟨node, hget⟩ := Option.isSome_iff_exists.mp hname
    rcases visits_walkAt t cwd source skip fuel ((names, base ++ names) :: above) names
      (base ++ names) name with hnone | ⟨loc, found, shown, hlook, -, hvisits⟩
    · rw [hnone] at hmem
      cases hmem
    · rw [look_unlinked hunlinked hget] at hlook
      cases hlook
      rcases List.mem_cons.mp (hvisits.subset hmem) with rfl | hinner
      · rfl
      · split_ifs at hinner
        · exact ih hinner
        · cases hinner

theorem loc_of_mem_ofSource {v : Visit} {pos : Tree.Position}
    (hs : t.resolve cwd source = .ok pos) (hloc : pos.loc = base)
    (hv : v ∈ (ofSource t cwd source skip).visits) : v.loc = base ++ v.names := by
  obtain ⟨pos', hs', -, heq⟩ := exists_ofDir hv
  rw [hs] at hs'
  cases hs'
  have hbase : pos.loc = base ++ [] := by rw [hloc, List.append_nil]
  rw [heq, hbase] at hv
  exact loc_of_mem_ofDir hunlinked hv

end Unlinked

/-! ## What is missing -/

/-- Two trees below `base`, where there are no links: in the second one, things are missing that a
walk of the first one skips, or that are in something it skips. Of what is there, the two walks skip
the same. -/
structure Thinned (t t' : Tree) (base : Loc) (skip skip' : List Name → Node → Bool) : Prop where
  unlinked : ∀ names target, t.get? (base ++ names) ≠ some (.link target)
  kept : ∀ names node, t'.get? (base ++ names) = some node → t.get? (base ++ names) = some node
  missing : ∀ names, (t.get? (base ++ names)).isSome → t'.get? (base ++ names) = none →
    ∃ q m, q <+: names ∧ q ≠ [] ∧ t.get? (base ++ q) = some m ∧ skip q m = true
  skips : ∀ names node, names ≠ [] → t.get? (base ++ names) = some node →
    skip' names node = skip names node

/-- A walk from `base` comes to what `names` lead to: it skips nothing on the way. -/
def Entered (t : Tree) (base : Loc) (skip : List Name → Node → Bool) (names : List Name) : Prop :=
  ∀ q m, q <+: names → q ≠ [] → t.get? (base ++ q) = some m → skip q m = false

theorem Entered.nil : Entered t base skip [] := fun _ _ hq hne =>
  absurd (List.prefix_nil.mp hq) hne

theorem Entered.snoc (h : Entered t base skip names)
    (hget : t.get? (base ++ (names ++ [name])) = some node)
    (hskip : skip (names ++ [name]) node = false) : Entered t base skip (names ++ [name]) := by
  intro q m hq hne hm
  rcases List.prefix_concat_iff.mp hq with rfl | hq
  · rw [hget] at hm
    rwa [← Option.some.inj hm]
  · exact h q m hq hne hm

namespace Thinned

variable (h : Thinned t t' base skip skip')

include h

theorem unlinked' (names : List Name) (target : Path) :
    t'.get? (base ++ names) ≠ some (.link target) := fun hget =>
  h.unlinked names target (h.kept names _ hget)

theorem sortedChildren_eq : t'.sortedChildren (base ++ names) =
    (t.sortedChildren (base ++ names)).filter fun name =>
      (t'.get? (base ++ (names ++ [name]))).isSome := by
  refine (t'.sortedChildren_pairwise _).eq_of_mem_iff
    ((t.sortedChildren_pairwise _).filter _) fun name => ?_
  rw [List.mem_filter, Tree.mem_sortedChildren, Tree.mem_sortedChildren, List.append_assoc]
  refine ⟨fun hsome => ⟨?_, hsome⟩, fun hboth => hboth.2⟩
  obtain ⟨node, hnode⟩ := Option.isSome_iff_exists.mp hsome
  exact Option.isSome_of_mem (h.kept _ node hnode)

/-- What has gone from a directory that a walk comes to added nothing there. -/
theorem walkAt_missing (hentered : Entered t base skip names)
    (hsome : (t.get? (base ++ (names ++ [name]))).isSome)
    (hgone : t'.get? (base ++ (names ++ [name])) = none) :
    walkAt t cwd source skip fuel above names (base ++ names) name = empty := by
  obtain ⟨node, hget⟩ := Option.isSome_iff_exists.mp hsome
  have hskip : skip (names ++ [name]) node = true := by
    obtain ⟨q, m, hq, hne, hm, hskip⟩ := h.missing _ hsome hgone
    rcases List.prefix_concat_iff.mp hq with rfl | hq
    · rw [hget] at hm
      rwa [Option.some.inj hm]
    · rw [hentered q m hq hne hm] at hskip
      cases hskip
  rw [walkAt, look_unlinked h.unlinked hget]
  exact if_pos hskip

/-- What is still there adds the same, if the walk of a directory does. -/
theorem walkAt_eq (hget : t'.get? (base ++ (names ++ [name])) = some node)
    (hinner : node = .dir → skip (names ++ [name]) node = false →
      ofDir t' cwd source skip' fuel' above' (names ++ [name]) (base ++ (names ++ [name])) =
        ofDir t cwd source skip fuel above (names ++ [name]) (base ++ (names ++ [name]))) :
    walkAt t' cwd source skip' fuel' above' names (base ++ names) name =
      walkAt t cwd source skip fuel above names (base ++ names) name := by
  have hkept := h.kept _ node hget
  have hskip := h.skips _ node (List.concat_ne_nil _ _) hkept
  rw [walkAt, walkAt, look_unlinked h.unlinked hkept, look_unlinked h.unlinked' hget]
  simp only [hskip]
  cases hskipped : skip (names ++ [name]) node with
  | true => rfl
  | false =>
    by_cases hdir : node = .dir
    · simp only [if_pos hdir, hinner hdir hskipped]
    · simp only [if_neg hdir]

/-- **The walk of a directory** that is in both trees, each with as much fuel as it can need. -/
theorem ofDir_eq (hdir : t'.get? (base ++ names) = some .dir) (hentered : Entered t base skip names)
    (hfuel : t.entries.length < (base ++ names).length + fuel)
    (hfuel' : t'.entries.length < (base ++ names).length + fuel') :
    ofDir t' cwd source skip' fuel' above' names (base ++ names) =
      ofDir t cwd source skip fuel above names (base ++ names) := by
  have hle := Tree.length_le_entries (h.kept _ _ hdir)
  have hle' := Tree.length_le_entries hdir
  induction fuel generalizing fuel' names above above' with
  | zero => omega
  | succ fuel ih =>
    cases fuel' with
    | zero => omega
    | succ fuel' =>
      rw [ofDir_succ, ofDir_succ, h.sortedChildren_eq]
      have hgone : ∀ name ∈ t.sortedChildren (base ++ names),
          (t'.get? (base ++ (names ++ [name]))).isSome = false →
            walkAt t cwd source skip fuel ((names, base ++ names) :: above) names (base ++ names)
              name = empty := by
        intro name hname hnone
        rw [Tree.mem_sortedChildren, List.append_assoc] at hname
        exact h.walkAt_missing hentered hname (by simpa using hnone)
      rw [← chain_filter hgone]
      refine congrArg chain (List.map_congr_left fun name hname => ?_)
      obtain ⟨node, hget⟩ := Option.isSome_iff_exists.mp (List.mem_filter.mp hname).2
      refine h.walkAt_eq hget fun hnode hskip => ?_
      subst hnode
      have hkept := h.kept _ _ hget
      have hlen : (base ++ (names ++ [name])).length = (base ++ names).length + 1 := by
        rw [← List.append_assoc, List.length_append, List.length_singleton]
      exact ih hget (hentered.snoc hkept hskip) (by omega) (by omega)
        (Tree.length_le_entries hkept) (Tree.length_le_entries hget)

/-- **The walk from a source** is the same in both trees. -/
theorem ofSource_eq {pos pos' : Tree.Position} (hs : t.resolve cwd source = .ok pos)
    (hs' : t'.resolve cwd source = .ok pos') (hloc : pos.loc = base) (hloc' : pos'.loc = base)
    (hdir : t'.get? base = some .dir) :
    ofSource t' cwd source skip' = ofSource t cwd source skip := by
  have hdir' : t'.get? (base ++ []) = some .dir := by rwa [List.append_nil]
  have hbound (s : Tree) : s.entries.length < (base ++ []).length + depthBound s := by
    have hle : s.entries.length + 1 ≤ depthBound s := Nat.le_mul_self _
    omega
  have heq : ofDir t' cwd source skip' (depthBound t') [] [] (base ++ []) =
      ofDir t cwd source skip (depthBound t) [] [] (base ++ []) :=
    h.ofDir_eq hdir' .nil (hbound t) (hbound t')
  rw [List.append_nil] at heq hdir'
  have hget : t.get? base = some .dir := by
    have hkept := h.kept [] .dir
    rw [List.append_nil] at hkept
    exact hkept hdir'
  unfold ofSource
  rw [hs, hs']
  simp only [hloc, hloc', hget, hdir, if_true, heq]

end Thinned

end Zipship.Package.Walk
