import Mathlib.Data.List.Lex
import Mathlib.Data.List.Nodup
import Mathlib.Data.List.Perm.Subperm
import Mathlib.Data.List.Induction
import Mathlib.Tactic.Common
import Zipship.Proofs.Path.Spelling

/-!
# What a tree shows

`get?` is the view of a tree. This file says what the operations do to it (`get?_erase`,
`get?_put`), what the shape of a tree means for it (`get?_eq_dir_of_append`, `valid_of_get?`,
`length_le_entries`), and that a listing shows exactly the entries of a directory, in strict byte
order (`mem_sortedChildren`, `sortedChildren_pairwise`).
-/

namespace Zipship.Tree

variable {t : Tree} {l k : Loc} {n : Name} {node : Node}

/-! ## Looking at changed trees -/

@[simp] theorem get?_nil (t : Tree) : t.get? [] = some .dir := by simp [get?]

theorem get?_eq_of_mem_iff {t' : Tree} {m : Option Node} (hl : l ≠ [])
    (h : ∀ node, (l, node) ∈ t'.entries ↔ m = some node) : t'.get? l = m := by
  cases hm : m with
  | some node => exact get?_of_mem ((h node).mpr hm)
  | none =>
    cases hg : t'.get? l with
    | none => rfl
    | some node =>
      have := (h node).mp (mem_of_get? hg hl)
      rw [hm] at this
      cases this

/-- After an erasure nothing is left at the location or below it. -/
theorem get?_erase (hl : l ≠ []) : (t.erase l).get? k = if l <+: k then none else t.get? k := by
  by_cases hk : k = []
  · subst hk
    simp [hl]
  refine get?_eq_of_mem_iff hk fun node => ?_
  show (k, node) ∈ t.entries.filter _ ↔ _
  rw [List.mem_filter, mem_entries_iff]
  split_ifs with hp
  · simp [hp]
  · simp [hp, hk]

/-- An erasure adds nothing. -/
theorem get?_of_erase (h : (t.erase l).get? k = some node) : t.get? k = some node := by
  by_cases hk : k = []
  · rw [hk, get?_nil] at h ⊢
    exact h
  · exact get?_of_mem (List.mem_filter.mp (mem_of_get? h hk)).1

/-- After a write the location shows what was written, and nothing else is changed. -/
theorem get?_put (h : t.Admits l node) :
    (t.put l node).get? k = if k = l then some node else t.get? k := by
  by_cases hk : k = []
  · subst hk
    rw [if_neg (Ne.symm h.1)]
    simp
  refine get?_eq_of_mem_iff hk fun m => ?_
  rw [put, dif_pos h]
  show (k, m) ∈ (t.entries.filter _) ++ [(l, node)] ↔ _
  rw [List.mem_append, List.mem_filter, mem_entries_iff, List.mem_singleton, Prod.mk.injEq]
  split_ifs with hkl
  · subst hkl
    simp [eq_comm]
  · simp [hkl, hk]

/-! ## The shape of a tree -/

/-- A link holds a path that can be looked up. -/
theorem valid_of_get?_link {target : Path} (h : t.get? l = some (.link target)) :
    target.valid = true := by
  by_cases hl : l = []
  · subst hl
    rw [get?_nil] at h
    cases h
  · exact t.valid _ (mem_of_get? h hl)

/-- Whatever has a location stands in a directory, under a valid name. -/
theorem parent_of_get? (h : t.get? (l ++ [n]) = some node) :
    t.get? l = some .dir ∧ n.valid = true := by
  obtain ⟨parent, m, heq, hm, hp⟩ := t.rooted _ (mem_of_get? h (by simp))
  obtain ⟨rfl, rfl⟩ : l = parent ∧ n = m := by simpa using List.append_inj' heq rfl
  refine ⟨?_, hm⟩
  rcases hp with rfl | hp
  · exact get?_nil t
  · exact get?_of_mem hp

/-- What lies above something is a directory. -/
theorem get?_eq_dir_of_append {names : List Name} (h : t.get? (l ++ names) = some node)
    (hn : names ≠ []) : t.get? l = some .dir := by
  induction names using List.reverseRecOn generalizing node with
  | nil => exact absurd rfl hn
  | append_singleton names n ih =>
    rw [← List.append_assoc] at h
    have hparent := (parent_of_get? h).1
    by_cases hnil : names = []
    · rwa [hnil, List.append_nil] at hparent
    · exact ih hparent hnil

theorem get?_eq_dir_of_isPrefix (h : t.get? k = some node) (hp : l <+: k) (hne : l ≠ k) :
    t.get? l = some .dir := by
  obtain ⟨names, rfl⟩ := hp
  exact get?_eq_dir_of_append h fun hn => hne (by simp [hn])

/-- What lies above something is there. -/
theorem isSome_of_isPrefix (h : (t.get? k).isSome) (hp : l <+: k) : (t.get? l).isSome := by
  obtain ⟨node, hnode⟩ := Option.isSome_iff_exists.mp h
  by_cases hne : l = k
  · rwa [hne]
  · rw [get?_eq_dir_of_isPrefix hnode hp hne]
    rfl

/-- Where nothing is, nothing is below. -/
theorem get?_eq_none_of_isPrefix (hnone : t.get? l = none) (hp : l <+: k) : t.get? k = none := by
  by_contra hne
  have hsome := isSome_of_isPrefix (Option.isSome_iff_ne_none.mpr hne) hp
  rw [hnone] at hsome
  cases hsome

theorem valid_of_get? (h : t.get? l = some node) : ∀ n ∈ l, n.valid = true := by
  induction l using List.reverseRecOn generalizing node with
  | nil => simp
  | append_singleton l n ih =>
    obtain ⟨hparent, hn⟩ := parent_of_get? h
    intro m hm
    rcases List.mem_append.mp hm with hm | hm
    · exact ih hparent m hm
    · rw [List.mem_singleton.mp hm]
      exact hn

theorem isPiece_of_get? (h : t.get? l = some node) : ∀ n ∈ l, n.IsPiece := fun n hn =>
  (Name.isEntry_of_valid (valid_of_get? h n hn)).toIsPiece

/-- A location is no longer than there are entries: each of its beginnings is one. -/
theorem length_le_entries (h : t.get? l = some node) : l.length ≤ t.entries.length := by
  let starts : List Loc := (List.range l.length).map fun i => l.take (i + 1)
  have hnodup : starts.Nodup := by
    refine List.Nodup.map_on ?_ List.nodup_range
    intro i hi j hj heq
    have := congrArg List.length heq
    simp only [List.length_take, List.mem_range] at this hi hj
    omega
  have hsub : starts ⊆ t.entries.map Prod.fst := by
    intro s hs
    obtain ⟨i, hi, rfl⟩ := List.mem_map.mp hs
    have hsome := isSome_of_isPrefix (Option.isSome_of_mem h) (List.take_prefix (i + 1) l)
    obtain ⟨m, hm⟩ := Option.isSome_iff_exists.mp hsome
    have hne : l.take (i + 1) ≠ [] := by
      have := List.mem_range.mp hi
      rw [ne_eq, List.take_eq_nil_iff]
      rintro (h0 | rfl)
      · omega
      · simp at this
    exact List.mem_map_of_mem (f := Prod.fst) (mem_of_get? hm hne)
  have := (hnodup.subperm hsub).length_le
  simpa [starts] using this

/-! ## Listings -/

theorem mem_children : n ∈ t.children l ↔ (t.get? (l ++ [n])).isSome := by
  unfold children
  rw [List.mem_filterMap]
  constructor
  · rintro ⟨⟨k, node⟩, he, hn⟩
    split_ifs at hn with hk
    have hkey : k = l ++ [n] := by
      rw [← hk]
      exact (List.dropLast_append_getLast? n hn).symm
    rw [← hkey, get?_of_mem he]
    rfl
  · intro h
    obtain ⟨node, hnode⟩ := Option.isSome_iff_exists.mp h
    exact ⟨(l ++ [n], node), mem_of_get? hnode (by simp), by simp⟩

theorem nodup_children (t : Tree) (l : Loc) : (t.children l).Nodup := by
  have hpair : t.entries.Pairwise fun a b => a.1 ≠ b.1 := List.pairwise_map.mp t.nodup
  unfold children
  refine List.Pairwise.filterMap _ ?_ hpair
  intro a b hab x hx y hy hxy
  split_ifs at hx hy with ha hb
  refine hab ?_
  rw [← List.dropLast_append_getLast? x hx, ← List.dropLast_append_getLast? y hy, ha, hb, hxy]

theorem insertName_perm (n : Name) : ∀ names, (insertName n names).Perm (n :: names)
  | [] => List.Perm.refl _
  | m :: rest => by
    unfold insertName
    split_ifs
    · exact List.Perm.refl _
    · exact ((insertName_perm n rest).cons m).trans (List.Perm.swap n m rest)

theorem sortNames_perm : ∀ names, (sortNames names).Perm names
  | [] => List.Perm.refl _
  | n :: rest => (insertName_perm n _).trans ((sortNames_perm rest).cons n)

theorem insertName_pairwise {names : List Name} (h : names.Pairwise (· ≤ ·)) :
    (insertName n names).Pairwise (· ≤ ·) := by
  induction names with
  | nil => exact List.pairwise_singleton _ n
  | cons m rest ih =>
    rw [List.pairwise_cons] at h
    unfold insertName
    split_ifs with hle
    · refine List.pairwise_cons.mpr ⟨fun x hx => ?_, List.pairwise_cons.mpr h⟩
      rcases List.mem_cons.mp hx with rfl | hx
      · exact hle
      · exact List.le_trans hle (h.1 x hx)
    · refine List.pairwise_cons.mpr ⟨fun x hx => ?_, ih h.2⟩
      rcases List.mem_cons.mp ((insertName_perm n rest).mem_iff.mp hx) with rfl | hx
      · exact (List.le_total m x).resolve_right hle
      · exact h.1 x hx

theorem sortNames_pairwise : ∀ names : List Name, (sortNames names).Pairwise (· ≤ ·)
  | [] => List.Pairwise.nil
  | _ :: rest => insertName_pairwise (sortNames_pairwise rest)

theorem mem_sortedChildren : n ∈ t.sortedChildren l ↔ (t.get? (l ++ [n])).isSome := by
  unfold sortedChildren
  rw [(sortNames_perm _).mem_iff, mem_children]

/-- A sorted listing shows every name once, in byte order. -/
theorem sortedChildren_pairwise (t : Tree) (l : Loc) :
    (t.sortedChildren l).Pairwise (· < ·) := by
  have hle := sortNames_pairwise (t.children l)
  have hne : (sortNames (t.children l)).Pairwise (· ≠ ·) :=
    (sortNames_perm _).nodup_iff.mpr (nodup_children t l)
  exact (hle.and hne).imp fun {a b} h =>
    List.not_le.mp fun hba => h.2 (List.le_antisymm h.1 hba)

/-- The entries below a location are what stands there under the names that lead on. -/
theorem mem_below {names : List Name} :
    (names, node) ∈ t.below l ↔ names ≠ [] ∧ t.get? (l ++ names) = some node := by
  unfold below
  rw [List.mem_filterMap]
  constructor
  · rintro ⟨⟨k, found⟩, hmem, hentry⟩
    split_ifs at hentry with hbelow
    obtain ⟨⟨names, rfl⟩, hne⟩ := hbelow
    simp only [List.drop_left, Option.some.injEq, Prod.mk.injEq] at hentry
    obtain ⟨rfl, rfl⟩ := hentry
    exact ⟨fun hnil => hne (by simp [hnil]), get?_of_mem hmem⟩
  · rintro ⟨hne, hget⟩
    refine ⟨(l ++ names, node), mem_of_get? hget (by simp [hne]), ?_⟩
    simp [hne]

/-! ## The order of lists of names -/

/-- Below entries of one directory, the order of their names decides. -/
theorem lex_of_lt {names x y : List Name} {a b : Name} (hab : a < b)
    (hx : names ++ [a] <+: x) (hy : names ++ [b] <+: y) : List.Lex (· < ·) x y := by
  obtain ⟨x, rfl⟩ := hx
  obtain ⟨y, rfl⟩ := hy
  rw [List.append_assoc, List.append_assoc]
  exact List.Lex.append_left _ (List.Lex.rel hab) names

/-- A directory precedes what is in it. -/
theorem lex_of_isPrefix {x y : List Name} (h : x <+: y) (hne : x ≠ y) :
    List.Lex (· < ·) x y := by
  obtain ⟨rest, rfl⟩ := h
  have hrest : rest ≠ [] := fun hnil => hne (by simp [hnil])
  obtain ⟨n, rest, rfl⟩ := List.exists_cons_of_ne_nil hrest
  have hlex := List.Lex.append_left (· < ·) (List.Lex.nil (a := n) (l := rest)) x
  rwa [List.append_nil] at hlex

end Zipship.Tree
