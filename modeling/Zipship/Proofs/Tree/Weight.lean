import Mathlib.Algebra.BigOperators.Group.List.Basic
import Mathlib.Algebra.GroupWithZero.Nat
import Mathlib.Algebra.Order.BigOperators.Group.List
import Mathlib.Algebra.Order.Group.Nat
import Zipship.Clean.Run
import Zipship.Proofs.Tree.View

/-!
# What the entries of a tree come to

Something is counted for each entry at or below a location (`weightAt`); the bytes of the files
there that have a path are one example (`bytesBelow_eq`). A place that is removed takes away what
was counted for it, no more and no less (`weightAt_erase`), and what is counted depends on the view
of the tree alone (`weightAt_congr`).
-/

namespace Zipship.Tree

variable {t t' : Tree} {root l : Loc} {node : Node} {weight weight' : Loc → Node → Nat}
  {p : Path}

/-- What is counted for the entries at or below a location. -/
def weightAt (t : Tree) (weight : Loc → Node → Nat) (l : Loc) : Nat :=
  ((t.entries.filter fun e => l <+: e.1).map fun e => weight e.1 e.2).sum

/-- The view of a tree tells its entries at or below a location, but not their order. -/
theorem entries_perm {entries : List (Loc × Node)} (hnodup : entries.Nodup)
    (h : ∀ k node, (k, node) ∈ entries ↔ l <+: k ∧ k ≠ [] ∧ t.get? k = some node) :
    (t.entries.filter fun e => l <+: e.1).Perm entries := by
  refine (List.perm_ext_iff_of_nodup (t.nodup.of_map.filter _) hnodup).mpr fun e => ?_
  obtain ⟨k, node⟩ := e
  rw [h, List.mem_filter, decide_eq_true_iff, mem_entries_iff]
  exact and_comm

theorem weightAt_congr (h : ∀ k, l <+: k → t'.get? k = t.get? k) :
    t'.weightAt weight l = t.weightAt weight l := by
  have hperm : (t'.entries.filter fun e => l <+: e.1).Perm
      (t.entries.filter fun e => l <+: e.1) := by
    refine entries_perm (t.nodup.of_map.filter _) fun k node => ?_
    rw [List.mem_filter, decide_eq_true_iff, mem_entries_iff, and_comm]
    exact and_congr_right fun hk => by rw [h k hk]
  exact (hperm.map _).sum_eq

/-- Where nothing is, nothing is counted. -/
theorem weightAt_of_get?_eq_none (hnone : t.get? l = none) : t.weightAt weight l = 0 := by
  have hperm : (t.entries.filter fun e => l <+: e.1).Perm [] := by
    refine entries_perm List.nodup_nil fun k node => iff_of_false List.not_mem_nil ?_
    rintro ⟨hk, -, hget⟩
    rw [get?_eq_none_of_isPrefix hnone hk] at hget
    cases hget
  exact (hperm.map _).sum_eq

/-- What is no directory counts alone. -/
theorem weightAt_leaf (hget : t.get? l = some node) (hnode : node ≠ .dir) :
    t.weightAt weight l = weight l node := by
  have hl : l ≠ [] := by
    rintro rfl
    rw [get?_nil] at hget
    exact hnode (Option.some.inj hget).symm
  have hperm : (t.entries.filter fun e => l <+: e.1).Perm [(l, node)] := by
    refine entries_perm (List.nodup_singleton _) fun k m => ?_
    rw [List.mem_singleton, Prod.mk.injEq]
    constructor
    · rintro ⟨rfl, rfl⟩
      exact ⟨List.prefix_rfl, hl, hget⟩
    · rintro ⟨hk, -, hm⟩
      have heq : l = k := by
        by_contra hne
        rw [get?_eq_dir_of_isPrefix hm hk hne] at hget
        exact hnode (Option.some.inj hget).symm
      subst heq
      exact ⟨rfl, Option.some.inj (hm.symm.trans hget)⟩
  exact (hperm.map _).sum_eq

/-- **What a removal takes away** is what was counted for the place. -/
theorem weightAt_erase (hl : root <+: l) :
    (t.erase l).weightAt weight root + t.weightAt weight l = t.weightAt weight root := by
  have hkept : (t.erase l).entries.filter (fun e => root <+: e.1) =
      (t.entries.filter fun e => root <+: e.1).filter fun e => ¬ l <+: e.1 := by
    show (t.entries.filter fun e => ¬ l <+: e.1).filter _ = _
    rw [List.filter_filter, List.filter_filter]
    exact List.filter_congr fun e _ => Bool.and_comm _ _
  have htaken : t.entries.filter (fun e => l <+: e.1) =
      (t.entries.filter fun e => root <+: e.1).filter fun e => l <+: e.1 := by
    rw [List.filter_filter]
    refine List.filter_congr fun e _ => ?_
    by_cases he : l <+: e.1
    · simp [he, hl.trans he]
    · simp [he]
  unfold weightAt
  rw [hkept, htaken, Nat.add_comm]
  exact List.sum_map_filter_add_sum_map_filter_not (fun e : Loc × Node => l <+: e.1)
    (fun e => weight e.1 e.2) _

theorem weightAt_mono (h : ∀ k node, l <+: k → weight k node ≤ weight' k node) :
    t.weightAt weight l ≤ t.weightAt weight' l :=
  List.sum_le_sum fun e he => h e.1 e.2 (of_decide_eq_true (List.mem_filter.mp he).2)

/-- Entries at or below a location can be counted in two ways that agree there. -/
theorem weightAt_eq_of (h : ∀ k node, l <+: k → weight k node = weight' k node) :
    t.weightAt weight l = t.weightAt weight' l :=
  Nat.le_antisymm (weightAt_mono fun k node hk => (h k node hk).le)
    (weightAt_mono fun k node hk => (h k node hk).ge)

/-! ## The bytes of files -/

/-- The bytes that an entry holds as a file, if the operating system takes the path that leads to it
from `p`, which leads to `l`. -/
def fileWeight (p : Path) (l k : Loc) (node : Node) : Nat :=
  if (checkPath (p.descend (k.drop l.length))).isOk then node.fileSize else 0

/-- The weight of a file does not depend on the directory above it that its path is followed from.
-/
theorem fileWeight_descend {names : List Name} {k : Loc} (hk : l ++ names <+: k) :
    fileWeight (p.descend names) (l ++ names) k node = fileWeight p l k node := by
  obtain ⟨rest, rfl⟩ := hk
  unfold fileWeight
  rw [List.drop_left, List.append_assoc, List.drop_left, Path.descend_append]

/-- The bytes of the files in a directory are counted over the entries there. -/
theorem bytesBelow_eq (hdir : t.get? l = some .dir) :
    t.bytesBelow p l = t.weightAt (fileWeight p l) l := by
  have hself : ∀ e ∈ t.entries, e.1 = l → e.2 = .dir := by
    intro e he heq
    have hget := get?_of_mem he
    rw [heq, hdir] at hget
    exact (Option.some.inj hget).symm
  unfold bytesBelow below weightAt
  generalize t.entries = es at hself
  induction es with
  | nil => rfl
  | cons e es ih =>
    obtain ⟨hfirst, hmore⟩ := List.forall_mem_cons.mp hself
    have ih := ih hmore
    by_cases hbelow : l <+: e.1
    · by_cases heq : e.1 = l
      · have hzero : fileWeight p l l .dir = 0 := by simp [fileWeight, Node.fileSize]
        simp [heq, hfirst heq, hzero, ih]
      · by_cases hcheck : (checkPath (p.descend (e.1.drop l.length))).isOk
        · simp [hbelow, heq, hcheck, fileWeight, ih]
        · simp [hbelow, heq, hcheck, fileWeight, ih]
    · simp [hbelow, ih]

theorem bytesBelow_congr (hdir : t.get? l = some .dir)
    (h : ∀ k, l <+: k → t'.get? k = t.get? k) : t'.bytesBelow p l = t.bytesBelow p l := by
  rw [bytesBelow_eq hdir, bytesBelow_eq ((h l List.prefix_rfl).trans hdir), weightAt_congr h]

/-- The bytes in a directory that holds one file and nothing else are those of the file. -/
theorem bytesBelow_of_alone {n : Name} {content : Bytes} {mode : Nat} (hl : l ≠ [])
    (hdir : t.get? l = some .dir) (hfile : t.get? (l ++ [n]) = some (.file content mode))
    (hcheck : checkPath (p.child n) = .ok ⟨⟩)
    (halone : ∀ k, l <+: k → (t.get? k).isSome → k = l ∨ k = l ++ [n]) :
    t.bytesBelow p l = content.length := by
  have hperm : (t.entries.filter fun e => l <+: e.1).Perm
      [(l, .dir), (l ++ [n], .file content mode)] := by
    refine entries_perm (by simp) fun k node => ⟨fun hmem => ?_, ?_⟩
    · rcases List.mem_pair.mp hmem with h | h
      · cases h
        exact ⟨List.prefix_rfl, hl, hdir⟩
      · cases h
        exact ⟨List.prefix_append _ _, by simp, hfile⟩
    · rintro ⟨hk, -, hget⟩
      rcases halone k hk (Option.isSome_of_mem hget) with rfl | rfl
      · rw [hdir] at hget
        simp [Option.some.inj hget]
      · rw [hfile] at hget
        simp [← Option.some.inj hget]
  have hok : (checkPath (p.descend [n])).isOk = true := by
    rw [show p.descend [n] = p.child n from rfl, hcheck]
    rfl
  rw [bytesBelow_eq hdir, weightAt, (hperm.map _).sum_eq]
  simp [fileWeight, hok, Node.fileSize]


end Zipship.Tree
