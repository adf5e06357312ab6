import Zipship.Proofs.Tree.Spelled

/-!
# Edits that stay in one place

A path that spells a location leads there or nowhere, as long as there is no link on the way
(`Straight`). So what is done by such paths at or below a location where no links are stays there,
and makes no links there (`Confined`).
-/

namespace Zipship.Tree

variable {t t' : Tree} {cwd dir l k place : Loc} {p : Path} {n : Name} {node : Node}
  {links : Nat} {pos : Position} {last : Option Name}

/-! ## Ways without links -/

/-- A location whose way from the root has no link on it. -/
structure Straight (t : Tree) (l : Loc) : Prop where
  entries : ∀ n ∈ l, n.IsEntry
  unlinked : ∀ q, q <+: l → ∀ target, t.get? q ≠ some (.link target)

namespace Straight

/-- The way to something that is not a link goes through real directories. -/
theorem of_get? (hget : t.get? l = some node) (hlink : ∀ target, node ≠ .link target) :
    t.Straight l where
  entries n hn := Name.isEntry_of_valid (valid_of_get? hget n hn)
  unlinked q hq target h := by
    by_cases hlast : q = l
    · rw [hlast, hget] at h
      exact hlink target (Option.some.inj h)
    · rw [get?_eq_dir_of_isPrefix hget hq hlast] at h
      cases h

theorem snoc (h : t.Straight l) (hn : n.IsEntry)
    (hlink : ∀ target, t.get? (l ++ [n]) ≠ some (.link target)) : t.Straight (l ++ [n]) where
  entries m hm := (List.mem_append.mp hm).elim (h.entries m) fun hm =>
    List.mem_singleton.mp hm ▸ hn
  unlinked q hq := by
    rcases List.prefix_concat_iff.mp hq with rfl | hq
    · exact hlink
    · exact h.unlinked q hq

theorem above (h : t.Straight (l ++ [n])) : t.Straight l where
  entries m hm := h.entries m (List.mem_append_left _ hm)
  unlinked q hq := h.unlinked q (hq.trans (List.prefix_append l [n]))

theorem loc_of_follow (h : t.Straight l) (hf : t.follow links [] l = .ok pos) : pos.loc = l :=
  loc_of_follow_straight hf h.entries h.unlinked

theorem loc_of_resolve (h : t.Straight l) (hp : p.Spells l) (hr : t.resolve cwd p = .ok pos) :
    pos.loc = l := by
  rw [resolve_spells hp (resolve_ok hr).1] at hr
  exact h.loc_of_follow hr

theorem of_resolveLast (h : t.Straight l) (hn : n.IsEntry)
    (hlast : t.resolveLast links [] (l ++ [n]) = .ok (pos, last)) :
    pos.loc = l ∧ last = some n := by
  unfold resolveLast at hlast
  rw [List.getLast?_concat] at hlast
  simp only [hn.ne_here, hn.ne_up, or_self, if_false, List.dropLast_concat] at hlast
  obtain ⟨above, hfollow, hlast⟩ := bind_eq_ok.mp hlast
  split_ifs at hlast
  cases hlast
  exact ⟨h.loc_of_follow hfollow, rfl⟩

/-- What is located below a straight way is where the path spells it. -/
theorem eq_of_locate (h : t.Straight l) (hp : p.Spells (l ++ [n])) (hn : n.IsEntry)
    (hlocate : t.locate cwd p = .ok k) : k = l ++ [n] := by
  unfold locate at hlocate
  obtain ⟨⟨⟩, -, hlocate⟩ := bind_eq_ok.mp hlocate
  rw [hp.start, hp.route] at hlocate
  obtain ⟨⟨pos, last⟩, hlast, hlocate⟩ := bind_eq_ok.mp hlocate
  obtain ⟨hloc, rfl⟩ := h.of_resolveLast hn hlast
  simp only [hloc] at hlocate
  split_ifs at hlocate
  cases hlocate
  rfl

/-- What is created at the end of a straight way is where the path spells it. -/
theorem eq_of_create (h : t.Straight (l ++ [n])) (hp : p.Spells (l ++ [n]))
    (hcreate : create cwd p t = .ok (place, t')) : place = l ++ [n] := by
  obtain ⟨-, -, hspot⟩ := spot_of_create hcreate
  rw [hp.start, hp.route, creationSpot] at hspot
  obtain ⟨⟨pos, last⟩, hlast, hspot⟩ := bind_eq_ok.mp hspot
  obtain ⟨hloc, rfl⟩ := h.above.of_resolveLast (h.entries n (by simp)) hlast
  simp only [hloc] at hspot
  split at hspot
  · cases hspot
  · rename_i target hlink
    exact absurd hlink (h.unlinked _ List.prefix_rfl target)
  · cases hspot
    rfl

end Straight

/-! ## Changes in one place -/

theorem ext_entries (h : t.entries = t'.entries) : t = t' := by
  cases t
  cases t'
  cases h
  rfl

theorem erase_put (hl : l <+: k) : (t.put k node).erase l = t.erase l := by
  unfold put
  split_ifs
  · refine ext_entries ?_
    show ((t.entries.filter fun e => e.1 ≠ k) ++ [(k, node)]).filter _ = t.entries.filter _
    rw [List.filter_append, List.filter_filter, List.filter_cons_of_neg (by simpa using hl),
      List.filter_nil, List.append_nil]
    refine List.filter_congr fun e _ => ?_
    by_cases he : l <+: e.1
    · simp [he]
    · have hne : e.1 ≠ k := fun heq => he (heq ▸ hl)
      simp [he, hne]
  · rfl

theorem erase_erase (hl : l <+: k) : (t.erase k).erase l = t.erase l := by
  refine ext_entries ?_
  show (t.entries.filter _).filter _ = t.entries.filter _
  rw [List.filter_filter]
  refine List.filter_congr fun e _ => ?_
  by_cases he : l <+: e.1
  · simp [he]
  · have hne : ¬ k <+: e.1 := fun hk => he (hl.trans hk)
    simp [he, hne]

/-- Where nothing is, nothing is erased. -/
theorem erase_of_get?_eq_none (hnone : t.get? l = none) : t.erase l = t := by
  refine ext_entries (List.filter_eq_self.mpr fun e he => decide_eq_true fun hl => ?_)
  have hsome : t.get? e.1 = some e.2 := get?_of_mem he
  rw [get?_eq_none_of_isPrefix hnone hl] at hsome
  cases hsome

/-- A tree that differs from `t` only at or below a location, where it has no links. -/
structure Confined (t : Tree) (l : Loc) (t' : Tree) : Prop where
  outside : t'.erase l = t.erase l
  unlinked : ∀ k, l <+: k → ∀ target, t'.get? k ≠ some (.link target)

namespace Confined

theorem get?_eq (h : Confined t l t') (hl : l ≠ []) (hk : ¬ l <+: k) : t'.get? k = t.get? k := by
  have hview : (t'.erase l).get? k = (t.erase l).get? k := by rw [h.outside]
  rwa [get?_erase hl, get?_erase hl, if_neg hk, if_neg hk] at hview

/-- The directory of the location stays. -/
theorem get?_above (h : Confined t (l ++ [n]) t') : t'.get? l = t.get? l := by
  refine h.get?_eq (List.concat_ne_nil _ _) fun hpre => ?_
  have hlen := hpre.length_le
  rw [List.length_append] at hlen
  exact Nat.not_succ_le_self _ hlen

/-- The other entries of the directory stay. -/
theorem get?_beside {other : Name} (h : Confined t (l ++ [n]) t') (hne : other ≠ n) :
    t'.get? (l ++ [other]) = t.get? (l ++ [other]) := by
  refine h.get?_eq (List.concat_ne_nil _ _) fun hpre => hne ?_
  exact (List.singleton_inj.mp (List.append_cancel_left (hpre.eq_of_length (by simp)))).symm

/-- Where nothing was, there is no link. -/
theorem of_get?_eq_none (hnone : t.get? l = none) : Confined t l t where
  outside := rfl
  unlinked k hk target h := by
    rw [get?_eq_none_of_isPrefix hnone hk] at h
    cases h

theorem put (h : Confined t l t') (hl : l <+: k) (hnode : ∀ target, node ≠ .link target) :
    Confined t l (t'.put k node) where
  outside := by rw [erase_put hl, h.outside]
  unlinked q hq target := by
    by_cases hadmits : t'.Admits k node
    · rw [get?_put hadmits]
      split_ifs
      · exact fun he => hnode target (Option.some.inj he)
      · exact h.unlinked q hq target
    · unfold Tree.put
      rw [dif_neg hadmits]
      exact h.unlinked q hq target

theorem erase (h : Confined t l t') (hl : l <+: k) (hne : l ≠ []) :
    Confined t l (t'.erase k) where
  outside := by rw [erase_erase hl, h.outside]
  unlinked q hq target := by
    have hk : k ≠ [] := fun hk => hne (List.prefix_nil.mp (hk ▸ hl))
    rw [get?_erase hk]
    split_ifs
    · simp
    · exact h.unlinked q hq target

/-! ### Steps -/

variable {t'' : Tree} {content : Bytes} {mode : Nat}

theorem create (h : Confined t l t') (hl : l <+: place)
    (hcreate : Tree.create cwd p t' = .ok (place, t'')) : Confined t l t'' := by
  unfold Tree.create at hcreate
  obtain ⟨⟨⟩, -, hcreate⟩ := bind_eq_ok.mp hcreate
  split_ifs at hcreate
  · obtain ⟨-, -, hcreate⟩ := bind_eq_ok.mp hcreate
    cases hcreate
  · obtain ⟨spot, -, hcreate⟩ := bind_eq_ok.mp hcreate
    cases hget : t'.get? spot with
    | none =>
      rw [hget] at hcreate
      cases hcreate
      exact h.put hl (by simp)
    | some node =>
      rw [hget] at hcreate
      cases node with
      | file _ _ =>
        cases hcreate
        exact h.put hl (by simp)
      | dir | link _ | device _ =>
        cases hcreate
        exact h

theorem write (h : Confined t l t') (hl : l <+: place)
    (hwrite : Tree.write place content t' = .ok (⟨⟩, t'')) : Confined t l t'' := by
  unfold Tree.write at hwrite
  split at hwrite
  · cases hwrite
    exact h.put hl (by simp)
  · split_ifs at hwrite
    cases hwrite
    exact h
  · cases hwrite
    exact h

theorem setMode (h : Confined t l t') (hl : ∀ pos, t'.resolve cwd p = .ok pos → l <+: pos.loc)
    (hset : Tree.setMode cwd p mode t' = .ok (⟨⟩, t'')) : Confined t l t'' := by
  unfold Tree.setMode at hset
  obtain ⟨pos, hresolve, hset⟩ := bind_eq_ok.mp hset
  split at hset
  · cases hset
    exact h.put (hl pos hresolve) (by simp)
  · cases hset
    exact h
  · cases hset

theorem removeFile (h : Confined t l t') (hne : l ≠ [])
    (hl : ∀ k, t'.locate cwd p = .ok k → l <+: k)
    (hremove : Tree.removeFile cwd p t' = .ok (⟨⟩, t'')) : Confined t l t'' := by
  unfold Tree.removeFile at hremove
  obtain ⟨k, hlocate, hremove⟩ := bind_eq_ok.mp hremove
  split_ifs at hremove
  cases hremove
  exact h.erase (hl k hlocate) hne

end Confined

/-- Making a directory in another one, with those above it that are missing, makes no other. -/
theorem Confined.makeDirAll (h : Confined t (l ++ [n]) t') (hp : p.Spells (l ++ [n]))
    (hn : n.IsEntry) (hdir : t'.get? l = some .dir) :
    Confined t (l ++ [n]) ((Tree.makeDirAll cwd p).exec t').2 := by
  unfold Tree.makeDirAll
  rw [makeDirAllAux, if_neg (by simpa using hp.bytes_ne), Edit.exec_bind_of_ok Edit.exec_get]
  rcases makeDir_cases cwd hp hn hdir with ⟨-, hmade⟩ | ⟨e, hfail, hne⟩
  · rw [hmade]
    exact h.put List.prefix_rfl (by simp)
  · rw [hfail]
    simp only [if_neg hne]
    split_ifs
    · exact h
    · exact h

end Zipship.Tree
