import Zipship.Proofs.Tree.Agreement

/-!
# Failing look-ups

A look-up fails because nothing is there, or it is refused: something is in the way, a link leads
nowhere, or the operating system does not take the path. A refusal has to do with the way to a
directory, so it is the same for the entries of that directory (`Refuses.of_child`), and it is met
by every look-up of the directory itself (`refuses_child_of_resolve`). Taking things away refuses
nothing that was not refused before (`Refuses.of_subset`).
-/

namespace Zipship

theorem bind_eq_error {ε α β : Type} {x : Except ε α} {f : α → Except ε β} {e : ε} :
    x >>= f = .error e ↔ x = .error e ∨ ∃ a, x = .ok a ∧ f a = .error e := by
  cases x with
  | error e' => simp [bind, Except.bind]
  | ok a => simp [bind, Except.bind]

namespace Tree

variable {t t' : Tree} {cwd cur start : Loc} {route names : List Name} {links : Nat} {p : Path}
  {n m : Name} {pos : Position} {e : OsError}

/-! ## Smaller trees -/

/-- What stands in the way stands there in a tree that shows more. -/
theorem impasse_of_subset {l : Loc}
    (hsub : ∀ l node, t'.get? l = some node → t.get? l = some node)
    (hdir : t'.get? l ≠ some .dir) (he : t'.impasse l ≠ .notFound) :
    t.get? l ≠ some .dir ∧ t.impasse l = t'.impasse l := by
  cases hget : t'.get? l with
  | none => exact absurd (if_neg (by simp [hget])) he
  | some node =>
    have hlarge := hsub _ _ hget
    rw [impasse_of_get? hget, impasse_of_get? hlarge, hlarge]
    exact ⟨hget ▸ hdir, rfl⟩

/-- What is refused on the way is refused in a tree that shows more. -/
theorem follow_error_of_subset (hsub : ∀ l node, t'.get? l = some node → t.get? l = some node)
    (hf : t'.follow links cur route = .error e) (he : e ≠ .notFound) :
    t.follow links cur route = .error e := by
  induction links using Nat.strong_induction_on generalizing cur route with
  | _ links hjump =>
    induction route generalizing cur with
    | nil =>
      rw [follow_nil] at hf
      cases hf
    | cons piece rest ih =>
      by_cases hdir : t'.get? cur = some .dir
      · rw [follow_cons hdir] at hf
        rw [follow_cons (hsub _ _ hdir)]
        split_ifs at hf ⊢
        · exact ih hf
        · exact ih hf
        · exact hf
        · cases hget : t'.get? (cur ++ [piece]) with
          | none =>
            rw [hget] at hf
            cases hf
            exact absurd rfl he
          | some node =>
            rw [hget] at hf
            rw [hsub _ _ hget]
            cases node with
            | dir | file _ _ | device _ => exact ih hf
            | link target =>
              cases links with
              | zero => exact hf
              | succ links => exact hjump links (Nat.lt_succ_self _) hf
      · rw [follow_eq_travel, travel, if_pos hdir] at hf
        obtain rfl := Except.error.inj hf
        obtain ⟨hdir', himpasse⟩ := impasse_of_subset hsub hdir he
        rw [follow_eq_travel, travel, if_pos hdir', himpasse]

theorem resolveLast_error_of_subset
    (hsub : ∀ l node, t'.get? l = some node → t.get? l = some node)
    (h : t'.resolveLast links start route = .error e) (he : e ≠ .notFound) :
    t.resolveLast links start route = .error e := by
  unfold resolveLast at h ⊢
  cases hroute : route.getLast? with
  | none =>
    rw [hroute] at h
    cases h
  | some last =>
    simp only [hroute] at h ⊢
    by_cases hdots : last = Name.here ∨ last = Name.up
    · rw [if_pos hdots] at h ⊢
      rcases bind_eq_error.mp h with hfollow | ⟨pos, -, hpos⟩
      · rw [follow_error_of_subset hsub hfollow he]
        rfl
      · cases hpos
    · rw [if_neg hdots] at h ⊢
      rcases bind_eq_error.mp h with hfollow | ⟨pos, hfollow, hpos⟩
      · rw [follow_error_of_subset hsub hfollow he]
        rfl
      · rw [follow_ok_of_subset hsub hfollow]
        show (if t.get? pos.loc ≠ some .dir then _ else _ : Except _ _) = _
        by_cases hdir : t'.get? pos.loc = some .dir
        · rw [if_neg (not_not.mpr hdir)] at hpos
          rwa [if_neg (not_not.mpr (hsub _ _ hdir))]
        · rw [if_pos hdir] at hpos
          obtain rfl := Except.error.inj hpos
          obtain ⟨hdir', himpasse⟩ := impasse_of_subset hsub hdir he
          rw [if_pos hdir', himpasse]

/-! ## The directory of an entry -/

/-- The directory to whose entries a path goes on. -/
def directory (t : Tree) (cwd : Loc) (p : Path) : Except OsError Position := do
  let pos ← t.follow maxLinks (p.start cwd) p.pieces
  if t.get? pos.loc = some .dir then return pos else .error (t.impasse pos.loc)

theorem directory_eq_error : t.directory cwd p = .error e ↔
    t.follow maxLinks (p.start cwd) p.pieces = .error e ∨
      ∃ pos, t.follow maxLinks (p.start cwd) p.pieces = .ok pos ∧ t.get? pos.loc ≠ some .dir ∧
        t.impasse pos.loc = e := by
  unfold directory
  rw [bind_eq_error]
  refine or_congr_right (exists_congr fun pos => and_congr_right fun _ => ?_)
  by_cases hdir : t.get? pos.loc = some .dir
  · rw [if_pos hdir]
    exact iff_of_false (by simp [pure, Except.pure]) fun h => h.1 hdir
  · rw [if_neg hdir]
    exact ⟨fun h => ⟨hdir, Except.error.inj h⟩, fun h => congrArg Except.error h.2⟩

/-- An entry is looked up in the directory that the path in front of it leads to. -/
theorem locate_child_eq (hn : n.valid = true) :
    t.locate cwd (p.child n) = checkPath (p.child n) >>= fun _ => t.directory cwd p >>= fun pos =>
      if (t.get? (pos.loc ++ [n])).isSome then .ok (pos.loc ++ [n]) else .error .notFound := by
  have he := Name.isEntry_of_valid hn
  have hstart : (p.child n).start cwd = p.start cwd := by
    by_cases hp : p.bytes = []
    · have hchild : p.child n = ⟨n⟩ := by simp [Path.child_eq he.toIsPiece, Path.separator, hp]
      have habs : p.isAbsolute = false := by simp [Path.isAbsolute, hp]
      rw [hchild]
      simp [Path.start, habs, Path.isAbsolute_of_isPiece he.toIsPiece]
    · exact start_child hp he.toIsPiece
  unfold locate directory
  cases checkPath (p.child n) with
  | error e => rfl
  | ok _ =>
    show (t.resolveLast _ _ _).bind _ = (Except.bind _ _).bind _
    unfold resolveLast
    rw [route_child he.toIsPiece, hstart, List.getLast?_concat]
    simp only [he.ne_here, he.ne_up, or_self, if_false, List.dropLast_concat]
    cases t.follow maxLinks (p.start cwd) p.pieces with
    | error e => rfl
    | ok pos =>
      show (if t.get? pos.loc ≠ some .dir then _ else _ : Except _ _).bind _ =
        (if t.get? pos.loc = some .dir then _ else _ : Except _ _).bind _
      by_cases hdir : t.get? pos.loc = some .dir
      · rw [if_neg (not_not.mpr hdir), if_pos hdir,
          if_neg (Nat.not_lt.mpr (Name.length_le_of_valid hn))]
        rfl
      · rw [if_pos hdir, if_neg hdir]
        rfl

/-! ## Refusals -/

/-- Looking up the path fails, and not because nothing is there. -/
def Refuses (t : Tree) (cwd : Loc) (p : Path) : Prop :=
  ∃ e, t.locate cwd p = .error e ∧ e ≠ .notFound

/-- What refuses an entry is what refuses its path, or the directory in front of it. -/
theorem refuses_child_iff (hn : n.valid = true) : t.Refuses cwd (p.child n) ↔
    checkPath (p.child n) ≠ .ok ⟨⟩ ∨ ∃ e, t.directory cwd p = .error e ∧ e ≠ .notFound := by
  unfold Refuses
  rw [locate_child_eq hn]
  rcases checkPath_cases (Path.bytes_child_ne (Name.isEntry_of_valid hn).toIsPiece) with
    hcheck | ⟨e, hcheck, he⟩
  · rw [hcheck]
    cases hdir : t.directory cwd p with
    | error e =>
      simp [bind, Except.bind]
    | ok pos =>
      simp only [bind, Except.bind]
      split_ifs <;> simp
  · rw [hcheck]
    exact iff_of_true ⟨e, rfl, he⟩ (Or.inl (by simp))

/-- Of two entries, the operating system takes the path of the one with the shorter name if it takes
the other one. -/
theorem checkPath_child_of_size (hn : n.valid = true) (hm : m.valid = true)
    (hsize : n.length ≤ m.length) (h : checkPath (p.child m) = .ok ⟨⟩) :
    checkPath (p.child n) = .ok ⟨⟩ := by
  obtain ⟨he, hnul, -⟩ := Name.valid_iff.mp hn
  obtain ⟨hclean, -, hfits⟩ := checkPath_eq_ok.mp h
  rw [checkPath_eq_ok, Path.child_eq he.toIsPiece]
  rw [Path.child_eq (Name.isEntry_of_valid hm).toIsPiece] at hclean hfits
  refine ⟨?_, by simp [he.ne_empty], ?_⟩
  · simp_all [Path.hasNul]
  · simp only [List.length_append] at hfits ⊢
    omega

/-- Of two entries, the one with the longer name is refused with the other one. -/
theorem Refuses.of_child (h : t.Refuses cwd (p.child n)) (hn : n.valid = true)
    (hm : m.valid = true) (hsize : n.length ≤ m.length) :
    t.Refuses cwd (p.child m) := by
  rw [refuses_child_iff hn] at h
  rw [refuses_child_iff hm]
  exact h.imp_left fun hcheck hlong => hcheck (checkPath_child_of_size hn hm hsize hlong)

/-- What is refused is refused in a tree that shows more. -/
theorem Refuses.of_subset (hsub : ∀ l node, t'.get? l = some node → t.get? l = some node)
    (h : t'.Refuses cwd p) : t.Refuses cwd p := by
  obtain ⟨e, hlocate, he⟩ := h
  refine ⟨e, ?_, he⟩
  unfold locate at hlocate ⊢
  rcases bind_eq_error.mp hlocate with hcheck | ⟨⟨⟩, hcheck, hlocate⟩
  · rw [hcheck]
    rfl
  · rw [hcheck]
    rcases bind_eq_error.mp hlocate with hlast | ⟨⟨pos, last⟩, -, hfound⟩
    · show (t.resolveLast _ _ _).bind _ = _
      rw [resolveLast_error_of_subset hsub hlast he]
      rfl
    · cases last with
      | none => cases hfound
      | some last =>
        simp only at hfound
        split_ifs at hfound
        · cases hfound
        · exact absurd (Except.error.inj hfound).symm he

theorem resolve_refused (h : checkPath p = .error e) : t.resolve cwd p = .error e := by
  unfold resolve
  rw [h]
  rfl

/-- The empty path leads nowhere. -/
theorem resolve_empty (hp : p.bytes = []) : t.resolve cwd p = .error .notFound :=
  resolve_refused (by simp [checkPath, Path.hasNul, hp])

/-- Where a directory cannot be looked up, its entries cannot for the same reason. -/
theorem directory_of_resolve_error (hcheck : checkPath p = .ok ⟨⟩)
    (h : t.resolve cwd p = .error e) : t.directory cwd p = .error e := by
  have hfollow : t.follow maxLinks (p.start cwd) p.route = .error e := by
    unfold resolve at h
    rwa [hcheck] at h
  rw [directory_eq_error]
  unfold Path.route at hfollow
  split_ifs at hfollow
  · rw [follow_append] at hfollow
    rcases bind_eq_error.mp hfollow with hfront | ⟨pos, hfront, hhere⟩
    · exact Or.inl hfront
    · refine Or.inr ⟨pos, hfront, ?_⟩
      by_cases hdir : t.get? pos.loc = some .dir
      · rw [follow_cons hdir, if_pos rfl, follow_nil] at hhere
        cases hhere
      · rw [follow_eq_travel, travel, if_pos hdir] at hhere
        exact ⟨hdir, Except.error.inj hhere⟩
  · exact Or.inl hfollow

/-- Where a directory is refused, so are its entries. -/
theorem refuses_child_of_resolve (hn : n.valid = true) (h : t.resolve cwd p = .error e)
    (he : e ≠ .notFound) : t.Refuses cwd (p.child n) := by
  have hp : p.bytes ≠ [] := fun hp => he (Except.error.inj (h.symm.trans (resolve_empty hp)))
  rw [refuses_child_iff hn]
  by_cases hcheck : checkPath p = .ok ⟨⟩
  · exact Or.inr ⟨e, directory_of_resolve_error hcheck h, he⟩
  · exact Or.inl fun hchild =>
      hcheck (checkPath_of_child hp (Name.isEntry_of_valid hn).toIsPiece hchild)

/-- A directory below the one that a path leads to is found under its names. -/
theorem resolve_descend_real {node : Node} (hp : t.resolve cwd p = .ok pos)
    (hget : t.get? (pos.loc ++ names) = some node) (hlink : ∀ target, node ≠ .link target)
    (hcheck : checkPath (p.descend names) = .ok ⟨⟩) :
    t.resolve cwd (p.descend names) = .ok ⟨pos.loc ++ names, pos.links⟩ := by
  by_cases hne : names = []
  · subst hne
    rw [List.append_nil]
    exact hp
  · have hpiece : ∀ n ∈ names, n.IsPiece := fun n hn =>
      (Name.isEntry_of_valid (valid_of_get? hget n (List.mem_append_right _ hn))).toIsPiece
    rw [resolve_descend hp hne hpiece, hcheck]
    exact follow_real hget hlink

/-- What is below the directory that a path leads to is found under its names. -/
theorem locate_descend (hp : t.resolve cwd p = .ok pos) (hne : names ≠ [])
    (hsome : (t.get? (pos.loc ++ names)).isSome)
    (hsize : (p.descend names).bytes.length ≤ maxPathBytes) :
    t.locate cwd (p.descend names) = .ok (pos.loc ++ names) := by
  have hnames (n : Name) (hn : n ∈ names) : n.valid = true := by
    obtain ⟨node, hnode⟩ := Option.isSome_iff_exists.mp hsome
    exact valid_of_get? hnode n (List.mem_append_right _ hn)
  have hstart := (resolve_ok hp).1
  have hcheck := checkPath_descend hstart hnames hsize
  obtain ⟨above, n, rfl⟩ : ∃ above n, names = above ++ [n] :=
    ⟨_, _, (List.dropLast_concat_getLast hne).symm⟩
  rw [← List.append_assoc] at hsome ⊢
  obtain ⟨node, hnode⟩ := Option.isSome_iff_exists.mp hsome
  obtain ⟨hdir, hn⟩ := parent_of_get? hnode
  have hpiece (m : Name) (hm : m ∈ above ++ [n]) : m.IsPiece :=
    (Name.isEntry_of_valid (hnames m hm)).toIsPiece
  rw [Path.descend_snoc] at hcheck ⊢
  have hbytes := Path.bytes_descend_ne (bytes_ne_of_checkPath hstart) fun m hm =>
    hpiece m (List.mem_append_left _ hm)
  have habove := checkPath_of_child hbytes (hpiece n (by simp)) hcheck
  rw [locate_child hn (resolve_descend_real hp hdir (by simp) habove) hdir hcheck, if_pos hsome]

end Tree

end Zipship
