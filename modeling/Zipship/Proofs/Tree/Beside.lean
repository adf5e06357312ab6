import Zipship.Proofs.Tree.Agreement

/-!
# Edits at a few entries of a directory

`Beside` says that a tree differs from another one at most at some entries of a directory, and there
only in what is neither a directory nor a link. Such a difference leads no path elsewhere, so that
directory is still found, and what is done to those entries by their paths stays there: creating,
writing, marking and removing files keeps `Beside`.
-/

namespace Zipship.Tree

variable {t t' t'' : Tree} {cwd dir place l : Loc} {p : Path} {n : Name} {ns ms : List Name}
  {pos : Position} {content : Bytes} {mode : Nat} {node : Node}

/-! ## Changes at one place -/

/-- Writing changes the file that is open, or nothing. -/
theorem agreeOff_write (h : write place content t = .ok (⟨⟩, t')) :
    t' = t ∨ AgreeOff t t' place := by
  unfold write at h
  split at h
  · rename_i old mode hget
    cases h
    obtain ⟨hfile, hframe⟩ := write_file hget (write_of_file hget)
    exact Or.inr (agreeOff_of_files hget hfile hframe)
  · split_ifs at h
    cases h
    exact Or.inl rfl
  · cases h
    exact Or.inl rfl

/-- Setting permission bits changes the file that the path leads to, or nothing. -/
theorem agreeOff_setMode (h : setMode cwd p mode t = .ok (⟨⟩, t')) :
    t' = t ∨ ∃ pos, t.resolve cwd p = .ok pos ∧ AgreeOff t t' pos.loc := by
  obtain ⟨pos, hresolve, hset⟩ := bind_eq_ok.mp h
  split at hset
  · rename_i content old hget
    have hfile := (resolve_setMode hresolve hget h).2
    cases hset
    exact Or.inr ⟨pos, hresolve, agreeOff_of_files hget hfile fun k hk => by
      rw [get?_put (admits_of_file hget), if_neg hk]⟩
  · cases hset
    exact Or.inl rfl
  · cases hset

/-- What is no directory is removed alone. -/
theorem agreeOff_erase (hget : t.get? place = some node) (hleaf : t.IsLeaf place) :
    AgreeOff t (t.erase place) place := by
  have hne : place ≠ [] := by
    rintro rfl
    exact hleaf.1 (get?_nil t)
  refine ⟨fun k hk => ?_, hleaf, ?_⟩
  · rw [get?_erase hne]
    split_ifs with hbelow
    · cases hk' : t.get? k with
      | none => rfl
      | some _ => exact absurd (get?_eq_dir_of_isPrefix hk' hbelow hk.symm) hleaf.1
    · rfl
  · have hgone : (t.erase place).get? place = none := by
      rw [get?_erase hne, if_pos List.prefix_rfl]
    simp [IsLeaf, hgone]

/-! ## Changes at some entries -/

/-- The tree shows what `t` shows, but for the entries of a directory that have some names; and if
it shows something else there, neither that nor what `t` shows is a directory or a link. -/
def Beside (t : Tree) (dir : Loc) (ns : List Name) (t' : Tree) : Prop :=
  ∀ l, t'.get? l = t.get? l ∨ (∃ n ∈ ns, l = dir ++ [n]) ∧ t.IsLeaf l ∧ t'.IsLeaf l

namespace Beside

theorem refl (t : Tree) (dir : Loc) (ns : List Name) : Beside t dir ns t := fun _ => Or.inl rfl

theorem mono (h : Beside t dir ns t') (hsub : ns ⊆ ms) : Beside t dir ms t' := fun l =>
  (h l).imp_right fun ⟨⟨n, hn, hl⟩, hleaf⟩ => ⟨⟨n, hsub hn, hl⟩, hleaf⟩

/-- A change at one of the entries. -/
theorem step (h : Beside t dir ns t') (hn : n ∈ ns) (hagree : AgreeOff t' t'' (dir ++ [n])) :
    Beside t dir ns t'' := by
  intro l
  by_cases hl : l = dir ++ [n]
  · refine Or.inr ⟨⟨n, hn, hl⟩, ?_, hl ▸ hagree.leaf'⟩
    rcases h l with hsame | ⟨-, hleaf, -⟩
    · have hleaf : t'.IsLeaf l := hl ▸ hagree.leaf
      rwa [IsLeaf, hsame] at hleaf
    · exact hleaf
  · rcases h l with hsame | ⟨hplace, hleaf, hleaf'⟩
    · exact Or.inl ((hagree.agree l hl).trans hsame)
    · refine Or.inr ⟨hplace, hleaf, ?_⟩
      rwa [IsLeaf, hagree.agree l hl]

theorem trans (h : Beside t dir ns t') (h' : Beside t' dir ns t'') : Beside t dir ns t'' := by
  intro l
  rcases h' l with hsame' | ⟨hplace, hleaf', hleaf''⟩
  · rcases h l with hsame | ⟨hplace, hleaf, hleaf'⟩
    · exact Or.inl (hsame'.trans hsame)
    · refine Or.inr ⟨hplace, hleaf, ?_⟩
      rwa [IsLeaf, hsame']
  · refine Or.inr ⟨hplace, ?_, hleaf''⟩
    rcases h l with hsame | ⟨-, hleaf, -⟩
    · rwa [IsLeaf, hsame] at hleaf'
    · exact hleaf

/-- The other entries of the directory stay. -/
theorem get?_other {m : Name} (h : Beside t dir ns t') (hm : m ∉ ns) :
    t'.get? (dir ++ [m]) = t.get? (dir ++ [m]) := by
  rcases h (dir ++ [m]) with hsame | ⟨⟨n, hn, hl⟩, -⟩
  · exact hsame
  · rw [← List.singleton_inj.mp (List.append_cancel_left hl)] at hn
    exact absurd hn hm

/-- Directories stay. -/
theorem isDir (h : Beside t dir ns t') (hget : t.get? l = some .dir) : t'.get? l = some .dir := by
  rcases h l with hsame | ⟨-, hleaf, -⟩
  · rw [hsame, hget]
  · exact absurd hget hleaf.1

/-- A path that leads to a directory still leads there. -/
theorem resolve (h : Beside t dir ns t') (hp : t.resolve cwd p = .ok pos)
    (hdir : t.get? pos.loc = some .dir) : t'.resolve cwd p = .ok pos := by
  obtain ⟨hcheck, hfollow⟩ := resolve_ok hp
  unfold Tree.resolve
  rw [hcheck]
  refine follow_of_subset (P := fun l => t'.get? l ≠ t.get? l) (fun l node hl hget => ?_)
    (fun l hl => ((h l).resolve_left hl).2) hfollow fun hne => ?_
  · rw [not_not.mp hl, hget]
  · exact absurd (h.isDir hdir) fun hdir' => hne (hdir'.trans hdir.symm)

/-- No link is made. -/
theorem not_link {target : Path} (h : Beside t dir ns t')
    (hlink : t.get? l ≠ some (.link target)) : t'.get? l ≠ some (.link target) := by
  rcases h l with hsame | ⟨-, -, hleaf⟩
  · rwa [hsame]
  · exact hleaf.2 target

/-! ### Steps -/

section Steps

variable (h : Beside t pos.loc ns t') (hp : t.resolve cwd p = .ok pos)
  (hdir : t.get? pos.loc = some .dir)
  (hlinks : ∀ n ∈ ns, ∀ target, t.get? (pos.loc ++ [n]) ≠ some (.link target))
  (hn : n ∈ ns) (hentry : n.IsEntry)

include h hn

theorem write (hwrite : Tree.write (pos.loc ++ [n]) content t' = .ok (⟨⟩, t'')) :
    Beside t pos.loc ns t'' := by
  rcases agreeOff_write hwrite with rfl | hagree
  · exact h
  · exact h.step hn hagree

include hp hdir hlinks hentry

/-- A file is created at its place. -/
theorem create (hcreate : Tree.create cwd (p.child n) t' = .ok (place, t'')) :
    place = pos.loc ++ [n] ∧ Beside t pos.loc ns t'' := by
  obtain rfl : place = pos.loc ++ [n] :=
    loc_of_create_child hentry (h.resolve hp hdir) (h.isDir hdir)
      (fun target => h.not_link (hlinks n hn target)) hcreate
  exact ⟨rfl, h.step hn (agreeOff_create hcreate)⟩

theorem setMode (hset : Tree.setMode cwd (p.child n) mode t' = .ok (⟨⟩, t'')) :
    Beside t pos.loc ns t'' := by
  rcases agreeOff_setMode hset with rfl | ⟨stop, hstop, hagree⟩
  · exact h
  · have hloc : stop.loc = pos.loc ++ [n] := loc_of_resolve_child hentry (h.resolve hp hdir)
      (fun target => h.not_link (hlinks n hn target)) hstop
    exact h.step hn (hloc ▸ hagree)

end Steps

end Beside

end Zipship.Tree
