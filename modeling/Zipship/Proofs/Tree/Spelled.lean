import Zipship.Proofs.Tree.Edit

/-!
# Edits at spelled places

A path that spells a location from the root leaves nothing open: each operation that succeeds there
has one effect on the view of the tree, at that location. So a sequence of operations on such paths
can be followed by looking at the view alone.
-/

namespace Zipship.Tree

variable {t t' : Tree} {cwd l k place : Loc} {p : Path} {n : Name} {node : Node} {mode old : Nat}
  {content : Bytes} {links : Nat}

/-! ## Looking -/

/-- What is in the way of a spelled place that is not below a directory. -/
theorem locate_spelled_notDir (hp : p.Spells (l ++ [n])) (hc : checkPath p = .ok ⟨⟩)
    (hn : n.IsEntry) (hget : t.get? l = some node) (hlink : ∀ target, node ≠ .link target)
    (hnode : node ≠ .dir) : t.locate cwd p = .error .notDirectory := by
  unfold locate
  rw [hc, hp.start, hp.route]
  show (t.resolveLast maxLinks [] (l ++ [n])).bind _ = _
  unfold resolveLast
  rw [List.getLast?_concat]
  simp only [hn.ne_here, hn.ne_up, or_self, if_false, List.dropLast_concat]
  rw [follow_root hget hlink]
  show (Except.bind (if t.get? l ≠ some .dir then _ else _) _) = _
  rw [if_pos (by simpa [hget] using hnode), impasse_of_get? hget]
  rfl

/-- A spelled place where nothing is cannot be looked up. -/
theorem not_resolve_spelled (hp : p.Spells (l ++ [n])) (hn : n.IsEntry)
    (hdir : t.get? l = some .dir) (hnone : t.get? (l ++ [n]) = none) (pos : Position) :
    t.resolve cwd p ≠ .ok pos := by
  intro h
  obtain ⟨hc, hf⟩ := resolve_ok h
  rw [hp.start, hp.route] at hf
  obtain ⟨mid, hmid, hend⟩ := follow_append_ok hf
  rw [follow_root hdir (by simp)] at hmid
  cases hmid
  rw [follow_cons hdir, if_neg hn.ne_here, if_neg hn.ne_up] at hend
  split_ifs at hend
  rw [hnone] at hend
  cases hend

theorem stat_spelled (hp : p.Spells l) (hget : t.get? l = some node)
    (hlink : ∀ target, node ≠ .link target) {found : Node} (h : t.stat cwd p = .ok found) :
    found = node := by
  obtain ⟨pos, hresolve, hfound⟩ := stat_eq_ok.mp h
  rw [resolve_spelled hp (resolve_ok hresolve).1 hget hlink] at hresolve
  cases hresolve
  rw [hget] at hfound
  exact (Option.some.inj hfound).symm

theorem read_spelled (hp : p.Spells l) (hget : t.get? l = some (.file content mode)) {found : Bytes}
    (h : t.read cwd p = .ok found) : found = content := by
  unfold read at h
  obtain ⟨node, hstat, h⟩ := bind_eq_ok.mp h
  rw [stat_spelled hp hget (by simp) hstat] at h
  cases h
  rfl

/-! ## Changing -/

/-- A file that is created where nothing is. -/
theorem create_spelled (hp : p.Spells (l ++ [n])) (hn : n.IsEntry) (hdir : t.get? l = some .dir)
    (hnone : t.get? (l ++ [n]) = none) (h : create cwd p t = .ok (place, t')) :
    place = l ++ [n] ∧
      ∀ k, t'.get? k = if k = l ++ [n] then some (.file [] newFileMode) else t.get? k := by
  have hplace : place = l ++ [n] := by
    obtain ⟨-, -, hspot⟩ := spot_of_create h
    rw [hp.start, hp.route, creationSpot] at hspot
    obtain ⟨found, hlast, hspot⟩ := bind_eq_ok.mp hspot
    rw [resolveLast_real hdir hn] at hlast
    split_ifs at hlast
    cases hlast
    simp only [hnone] at hspot
    cases hspot
    rfl
  subst hplace
  obtain ⟨hframe, ⟨mode, hget, ⟨-, rfl⟩ | ⟨old, hold⟩⟩ | ⟨d, hold, -⟩⟩ := create_ok h
  · refine ⟨rfl, fun k => ?_⟩
    split_ifs with hk
    · rw [hk, hget]
    · exact hframe k hk
  · rw [hnone] at hold
    cases hold
  · rw [hnone] at hold
    cases hold

/-- Making a directory in another one succeeds, or it fails, but not for want of something. -/
theorem makeDir_cases (cwd : Loc) (hp : p.Spells (l ++ [n])) (hn : n.IsEntry)
    (hdir : t.get? l = some .dir) :
    n.valid = true ∧ makeDir cwd p t = .ok (⟨⟩, t.put (l ++ [n]) .dir) ∨
      ∃ e, makeDir cwd p t = .error e ∧ e ≠ .notFound := by
  unfold makeDir
  rcases checkPath_cases hp.bytes_ne with hc | ⟨e, hc, he⟩
  · rw [hc, hp.start, hp.pieces]
    have hlast : t.resolveLast maxLinks [] (l ++ [n]) = _ := resolveLast_real hdir hn
    by_cases hsize : maxNameBytes < n.length
    · rw [if_pos hsize] at hlast
      rw [hlast]
      exact Or.inr ⟨.nameTooLong, rfl, by decide⟩
    · rw [if_neg hsize] at hlast
      have hroute : Passable (l ++ [n]) := by
        have hpass := passable_route (hasNul_of_checkPath hc)
        rwa [hp.route] at hpass
      have hvalid := (resolveLast_ok hroute hlast).2
      rw [hlast]
      by_cases hsome : (t.get? (l ++ [n])).isSome = true
      · exact Or.inr ⟨.alreadyExists, if_pos hsome, by decide⟩
      · exact Or.inl ⟨hvalid, if_neg hsome⟩
  · rw [hc]
    exact Or.inr ⟨e, rfl, he⟩

/-- A directory that is made where nothing is, in a directory. -/
theorem makeDirAll_spelled (hp : p.Spells (l ++ [n])) (hn : n.IsEntry)
    (hdir : t.get? l = some .dir) (hnone : t.get? (l ++ [n]) = none)
    (h : (makeDirAll cwd p).exec t = (.ok ⟨⟩, t')) :
    ∀ k, t'.get? k = if k = l ++ [n] then some .dir else t.get? k := by
  unfold makeDirAll at h
  rw [makeDirAllAux, if_neg (by simpa using hp.bytes_ne), Edit.exec_bind_of_ok Edit.exec_get] at h
  rcases makeDir_cases cwd hp hn hdir with ⟨hvalid, hmade⟩ | ⟨e, herror, hne⟩
  · rw [hmade] at h
    cases h
    exact fun k => get?_put (admits_child hdir hvalid rfl fun _ => rfl)
  · have hnotDir : ¬ t.isDir cwd p = true := by
      intro hisDir
      unfold isDir at hisDir
      cases hstat : t.stat cwd p with
      | error e =>
        rw [hstat] at hisDir
        cases hisDir
      | ok node =>
        obtain ⟨pos, hresolve, -⟩ := stat_eq_ok.mp hstat
        exact not_resolve_spelled hp hn hdir hnone pos hresolve
    rw [herror] at h
    simp only [if_neg hne, if_neg hnotDir] at h
    cases h

/-- The permission bits of a file are set. -/
theorem setMode_spelled (hp : p.Spells l) (hget : t.get? l = some (.file content old))
    (h : setMode cwd p mode t = .ok (⟨⟩, t')) :
    ∀ k, t'.get? k = if k = l then some (.file content mode) else t.get? k := by
  unfold setMode at h
  obtain ⟨pos, hresolve, h⟩ := bind_eq_ok.mp h
  rw [resolve_spelled hp (resolve_ok hresolve).1 hget (by simp)] at hresolve
  cases hresolve
  simp only [hget] at h
  cases h
  intro k
  exact get?_put (admits_of_file hget)

/-- A file is removed. -/
theorem removeFile_spelled (hp : p.Spells (l ++ [n])) (hget : t.get? (l ++ [n]) = some node)
    (h : removeFile cwd p t = .ok (⟨⟩, t')) :
    ∀ k, t'.get? k = if l ++ [n] <+: k then none else t.get? k := by
  obtain ⟨hdir, hn⟩ := parent_of_get? hget
  unfold removeFile at h
  obtain ⟨place, hlocate, h⟩ := bind_eq_ok.mp h
  have hcheck : checkPath p = .ok ⟨⟩ := by
    unfold locate at hlocate
    obtain ⟨⟨⟩, hcheck, -⟩ := bind_eq_ok.mp hlocate
    exact hcheck
  rw [locate_spelled hp hcheck hdir hn, if_pos (by simp [hget])] at hlocate
  cases hlocate
  split_ifs at h
  cases h
  exact fun k => get?_erase (by simp)

/-! ## Succeeding

What the operating system accepts is done, if nothing is in the way. -/

section Accepted

variable (hc : checkPath p = .ok ⟨⟩)

include hc

theorem stat_of_spells (hp : p.Spells l) (hget : t.get? l = some node)
    (hlink : ∀ target, node ≠ .link target) : t.stat cwd p = .ok node :=
  stat_eq_ok.mpr ⟨_, resolve_spelled hp hc hget hlink, hget⟩

/-- The permission bits of a file can be set. -/
theorem setMode_of_spells (hp : p.Spells l) (hget : t.get? l = some (.file content old)) :
    setMode cwd p mode t = .ok (⟨⟩, t.put l (.file content mode)) := by
  refine bind_eq_ok.mpr ⟨_, resolve_spelled hp hc hget (by simp), ?_⟩
  simp only [hget]
  rfl

/-- A file can be removed. -/
theorem removeFile_of_spells (hp : p.Spells (l ++ [n])) (hget : t.get? (l ++ [n]) = some node)
    (hnode : node ≠ .dir) : removeFile cwd p t = .ok (⟨⟩, t.erase (l ++ [n])) := by
  obtain ⟨hdir, hn⟩ := parent_of_get? hget
  unfold removeFile
  rw [locate_spelled hp hc hdir hn, if_pos (by simp [hget])]
  show (if t.get? (l ++ [n]) = some .dir then _ else _) = _
  rw [if_neg (by simpa [hget] using hnode)]
  rfl

variable (hp : p.Spells (l ++ [n])) (hn : n.valid = true) (hdir : t.get? l = some .dir)
  (hnone : t.get? (l ++ [n]) = none)

include hp hn hdir hnone

theorem makeDir_fresh : makeDir cwd p t = .ok (⟨⟩, t.put (l ++ [n]) .dir) := by
  unfold makeDir
  rw [hc, hp.start, hp.pieces]
  show (t.resolveLast maxLinks [] (l ++ [n])).bind _ = _
  rw [resolveLast_real hdir (Name.isEntry_of_valid hn),
    if_neg (Nat.not_lt.mpr (Name.length_le_of_valid hn))]
  exact if_neg (by simp [hnone])

/-- A directory can be made where nothing is, in a directory. -/
theorem makeDirAll_fresh : (makeDirAll cwd p).exec t = (.ok ⟨⟩, t.put (l ++ [n]) .dir) := by
  unfold makeDirAll
  rw [makeDirAllAux, if_neg (by simpa using hp.bytes_ne), Edit.exec_bind_of_ok Edit.exec_get,
    makeDir_fresh hc hp hn hdir hnone]
  rfl

/-- A file can be created where nothing is, in a directory. -/
theorem create_fresh :
    create cwd p t = .ok (l ++ [n], t.put (l ++ [n]) (.file [] newFileMode)) := by
  have hspot : t.creationSpot (maxLinks + 1) maxLinks [] (l ++ [n]) = .ok (l ++ [n]) := by
    rw [creationSpot, resolveLast_real hdir (Name.isEntry_of_valid hn),
      if_neg (Nat.not_lt.mpr (Name.length_le_of_valid hn))]
    refine bind_eq_ok.mpr ⟨_, rfl, ?_⟩
    simp only [hnone]
  unfold create
  rw [if_neg (by simp [hp.closed (by simp)]), hp.start, hp.route]
  refine bind_eq_ok.mpr ⟨_, hc, bind_eq_ok.mpr ⟨_, hspot, ?_⟩⟩
  simp only [hnone]
  rfl

end Accepted

end Zipship.Tree
