import Zipship.Proofs.Tree.Beside

/-!
# What making directories leaves

Making a directory with those above it that are missing may fail after some of them were made.
However it ends, nothing that was there is changed. What is new is directories, each of them where
the path leads or a path above it (`makeDirAll_made`).
-/

namespace Zipship.Tree

variable {t t' t'' : Tree} {cwd dir l : Loc} {p above : Path} {ns : List Name} {fuel : Nat}

/-- The path leads to a location, or one of those above it does. -/
inductive OnTheWay (t : Tree) (cwd : Loc) : Path → Loc → Prop
  | here {p : Path} {pos : Position} (h : t.resolve cwd p = .ok pos) : OnTheWay t cwd p pos.loc
  | above {p above : Path} {l : Loc} (habove : p.parent? = some above)
      (h : OnTheWay t cwd above l) : OnTheWay t cwd p l

theorem OnTheWay.mono (hsub : ∀ l node, t.get? l = some node → t'.get? l = some node)
    (h : OnTheWay t cwd p l) : OnTheWay t' cwd p l := by
  induction h with
  | here h => exact .here (resolve_of_subset hsub h)
  | above habove _ ih => exact .above habove ih

/-- Edits at a few entries of a directory lead no path to another directory. -/
theorem OnTheWay.beside (hbeside : Beside t dir ns t') (h : OnTheWay t cwd p l)
    (hl : t.get? l = some .dir) : OnTheWay t' cwd p l := by
  induction h with
  | here h => exact .here (hbeside.resolve h hl)
  | above habove _ ih => exact .above habove (ih hl)

/-- A directory was made at a location that is on the way of a path. -/
structure MadeAt (t : Tree) (cwd : Loc) (p : Path) (t' : Tree) (l : Loc) : Prop where
  free : t.get? l = none
  isDir : t'.get? l = some .dir
  onTheWay : OnTheWay t' cwd p l

/-- A tree that shows the same as `t`, and besides that directories on the way of a path. -/
def MadeWay (t : Tree) (cwd : Loc) (p : Path) (t' : Tree) : Prop :=
  ∀ l, t'.get? l = t.get? l ∨ MadeAt t cwd p t' l

namespace MadeWay

theorem refl (t : Tree) (cwd : Loc) (p : Path) : MadeWay t cwd p t := fun _ => Or.inl rfl

theorem get?_eq {node : Node} (h : MadeWay t cwd p t') (hget : t.get? l = some node) :
    t'.get? l = some node := by
  rcases h l with hsame | ⟨hfree, -, -⟩
  · rw [hsame, hget]
  · rw [hfree] at hget
    cases hget

/-- What is made on the way of a path above is made on the way of the path. -/
theorem below (habove : p.parent? = some above) (h : MadeWay t cwd above t') :
    MadeWay t cwd p t' := fun l =>
  (h l).imp_right fun ⟨hfree, hdir, hway⟩ => ⟨hfree, hdir, .above habove hway⟩

theorem trans (h : MadeWay t cwd p t') (h' : MadeWay t' cwd p t'') : MadeWay t cwd p t'' := by
  intro l
  rcases h l with hsame | ⟨hfree, hdir, hway⟩
  · rcases h' l with hsame' | ⟨hfree', hdir', hway'⟩
    · exact Or.inl (hsame'.trans hsame)
    · exact Or.inr ⟨hsame ▸ hfree', hdir', hway'⟩
  · exact Or.inr ⟨hfree, h'.get?_eq hdir, hway.mono fun _ _ => h'.get?_eq⟩

/-- What making directories and then edits at a few entries of one change. -/
theorem beside (h : MadeWay t cwd p t') (hbeside : Beside t' dir ns t'') (l : Loc) :
    t''.get? l = t.get? l ∨ MadeAt t cwd p t'' l ∨ ∃ n ∈ ns, l = dir ++ [n] := by
  rcases hbeside l with hsame | ⟨hplace, -⟩
  · rcases h l with hsame' | ⟨hfree, hdir, hway⟩
    · exact Or.inl (hsame.trans hsame')
    · exact Or.inr (Or.inl ⟨hfree, hsame.trans hdir, hway.beside hbeside hdir⟩)
  · exact Or.inr (Or.inr hplace)

/-- What is not a directory in the end was there before. -/
theorem same (h : MadeWay t cwd p t') (hne : t'.get? l ≠ some .dir) : t'.get? l = t.get? l :=
  (h l).resolve_right fun hmade => hne hmade.isDir

end MadeWay

/-- Making one directory: it is new, and the path leads there. -/
theorem makeDir_made (h : makeDir cwd p t = .ok (⟨⟩, t')) : MadeWay t cwd p t' := by
  unfold makeDir at h
  obtain ⟨⟨⟩, hcheck, h⟩ := bind_eq_ok.mp h
  obtain ⟨⟨pos, last⟩, hlast, h⟩ := bind_eq_ok.mp h
  cases last with
  | none => cases h
  | some last =>
    have hpass : Passable p.pieces := fun n hn =>
      ⟨Path.isPiece_of_mem_pieces hn, Path.no_nul_of_mem_pieces (hasNul_of_checkPath hcheck) hn⟩
    obtain ⟨hdir, hvalid⟩ := resolveLast_ok hpass hlast
    obtain ⟨front, hpieces, -, -, -, hfollow, -⟩ := resolveLast_some hlast
    simp only at h
    split_ifs at h with hsome
    cases h
    have hfree : t.get? (pos.loc ++ [last]) = none := by simpa using hsome
    have hview (k : Loc) : (t.put (pos.loc ++ [last]) .dir).get? k =
        if k = pos.loc ++ [last] then some .dir else t.get? k :=
      get?_put (admits_child hdir hvalid rfl fun _ => rfl)
    have hsub (k : Loc) (node : Node) (hget : t.get? k = some node) :
        (t.put (pos.loc ++ [last]) .dir).get? k = some node := by
      rw [hview, if_neg, hget]
      rintro rfl
      rw [hfree] at hget
      cases hget
    have hnew : (t.put (pos.loc ++ [last]) .dir).get? (pos.loc ++ [last]) = some .dir := by
      rw [hview, if_pos rfl]
    have hway : (t.put (pos.loc ++ [last]) .dir).follow maxLinks (p.start cwd) p.pieces =
        .ok ⟨pos.loc ++ [last], pos.links⟩ := by
      rw [hpieces, follow_append, follow_ok_of_subset hsub hfollow]
      exact follow_real hnew (by simp)
    have hresolve : (t.put (pos.loc ++ [last]) .dir).resolve cwd p =
        .ok ⟨pos.loc ++ [last], pos.links⟩ := by
      unfold resolve Path.route
      rw [hcheck]
      show Tree.follow _ maxLinks (p.start cwd) _ = _
      split_ifs
      · rw [follow_append, hway]
        show Tree.follow _ pos.links (pos.loc ++ [last]) [Name.here] = _
        rw [follow_cons hnew, if_pos rfl, follow_nil]
      · exact hway
    intro k
    by_cases hk : k = pos.loc ++ [last]
    · subst hk
      exact Or.inr ⟨hfree, hnew, .here hresolve⟩
    · exact Or.inl (by rw [hview, if_neg hk])

/-- Making directories with some fuel. The induction is on the fuel, one step of which goes to the
path above; it is made first, and then the directory itself. -/
theorem makeDirAllAux_made :
    MadeWay t cwd p ((makeDirAllAux cwd fuel p).exec t).2 := by
  induction fuel generalizing p t with
  | zero => exact .refl t cwd p
  | succ fuel ih =>
    rw [makeDirAllAux]
    split_ifs
    · exact .refl t cwd p
    · rw [Edit.exec_bind_of_ok Edit.exec_get]
      cases hmake : makeDir cwd p t with
      | ok result => exact makeDir_made hmake
      | error e =>
        simp only
        split_ifs
        · cases habove : p.parent? with
          | none => exact .refl t cwd p
          | some above =>
            have hup : MadeWay t cwd p ((makeDirAllAux cwd fuel above).exec t).2 := ih.below habove
            simp only
            rw [Edit.exec_bind]
            generalize (makeDirAllAux cwd fuel above).exec t = after at hup
            obtain ⟨_ | _, t₁⟩ := after
            · exact hup
            · simp only
              rw [Edit.exec_bind_of_ok Edit.exec_get]
              cases hmake₁ : makeDir cwd p t₁ with
              | ok result => exact hup.trans (makeDir_made hmake₁)
              | error e =>
                simp only
                split_ifs
                · exact hup
                · exact hup
        · exact .refl t cwd p
        · exact .refl t cwd p

/-- **Making a directory with those above it changes nothing that was there**, however it ends. -/
theorem makeDirAll_made (t : Tree) (cwd : Loc) (p : Path) :
    MadeWay t cwd p ((makeDirAll cwd p).exec t).2 := makeDirAllAux_made

end Zipship.Tree
