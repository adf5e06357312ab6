import Zipship.Proofs.Tree.Edit

/-!
# Looking up joined paths

A path that is joined to the path of a directory leads where the path itself leads for somebody who
is in that directory (`sameLookup_join`). Only the limits of one look-up tell the two apart: the
joined path is the longer one, and the links on the way to the directory count for it
(`follow_add`).
-/

namespace Zipship

/-! ## Joined paths -/

namespace Path

variable {p q : Path}

theorem bytes_join (hq : q.isAbsolute = false) :
    (p.join q).bytes = p.bytes ++ p.separator ++ q.bytes := by
  unfold join separator
  rw [if_neg (by simp [hq])]
  split_ifs <;> simp

theorem join_of_isAbsolute (hq : q.isAbsolute = true) : p.join q = q := if_pos hq

theorem hasNul_join (hp : p.hasNul = false) (hq : q.isAbsolute = false) :
    (p.join q).hasNul = q.hasNul := by
  have hnone : 0 ∉ p.separator := by
    unfold separator
    split_ifs <;> decide
  simp only [hasNul, List.contains_eq_mem, decide_eq_false_iff_not] at hp ⊢
  simp [bytes_join hq, hp, hnone]

theorem endsWithSlash_join (hq : q.isAbsolute = false) (hne : q.bytes ≠ []) :
    (p.join q).endsWithSlash = q.endsWithSlash := by
  unfold endsWithSlash
  rw [bytes_join hq, List.getLast?_append, List.getLast?_eq_some_getLast hne, Option.some_or]

/-- A relative path goes on behind the pieces of the path in front of it. -/
theorem route_join (hq : q.isAbsolute = false) (hne : q.bytes ≠ []) :
    (p.join q).route = p.pieces ++ q.route := by
  have hpieces : q.pieces ≠ [] := fun hnil => by
    rw [isAbsolute_of_pieces_eq_nil hne hnil] at hq
    cases hq
  unfold route
  rw [endsWithSlash_join hq hne, pieces_join hq]
  cases q.endsWithSlash <;> simp [hpieces]

end Path

namespace Tree

variable {t : Tree} {cwd cur : Loc} {route : List Name} {links : Nat} {p q : Path}
  {here pos : Position}

/-- Of a joined path the operating system refuses what it refuses of the second one, and what is
too long. -/
theorem checkPath_join (hp : checkPath p = .ok ⟨⟩) (hq : q.isAbsolute = false)
    (hne : q.bytes ≠ []) :
    checkPath (p.join q) = .error .nameTooLong ∨ checkPath (p.join q) = checkPath q := by
  have hnul := hasNul_of_checkPath hp
  have hbytes : (p.join q).bytes = _ := Path.bytes_join hq
  have hsize : q.bytes.length ≤ (p.join q).bytes.length := by
    simp only [hbytes, List.length_append]
    omega
  have hempty : ¬ (p.join q).bytes.isEmpty = true := by simp [hbytes, hne]
  have hempty' : ¬ q.bytes.isEmpty = true := by simpa using hne
  unfold checkPath
  rw [Path.hasNul_join hnul hq, if_neg hempty, if_neg hempty']
  by_cases hlong : maxPathBytes < (p.join q).bytes.length
  · rw [if_pos hlong]
    cases q.hasNul with
    | true => exact Or.inr rfl
    | false => exact Or.inl rfl
  · have hshort : ¬ maxPathBytes < q.bytes.length := fun h => hlong (h.trans_le hsize)
    rw [if_neg hlong, if_neg hshort]
    exact Or.inr rfl

/-- A look-up has at most as many links left as it could follow. -/
theorem links_le_of_follow (hf : t.follow links cur route = .ok pos) : pos.links ≤ links := by
  induction links using Nat.strong_induction_on generalizing cur route with
  | _ links hjump =>
    induction route generalizing cur with
    | nil =>
      rw [follow_nil] at hf
      cases hf
      exact Nat.le_refl _
    | cons piece rest ih =>
      rw [follow_cons (dir_of_follow_cons hf)] at hf
      split_ifs at hf
      · exact ih hf
      · exact ih hf
      · cases hget : t.get? (cur ++ [piece]) with
        | none =>
          rw [hget] at hf
          cases hf
        | some node =>
          rw [hget] at hf
          cases node with
          | dir | file _ _ | device _ => exact ih hf
          | link target =>
            cases links with
            | zero => cases hf
            | succ links =>
              exact Nat.le_succ_of_le (hjump links (Nat.lt_succ_self _) hf)

/-- A look-up that may follow more links goes the same way, unless it would have ended for want of
them, and in the end it has so many more of them left. -/
theorem follow_add (k : Nat) : t.follow links cur route = .error .tooManyLinks ∨
    t.follow (links + k) cur route =
      (t.follow links cur route).map fun pos => ⟨pos.loc, pos.links + k⟩ := by
  induction links using Nat.strong_induction_on generalizing cur route with
  | _ links hjump =>
    induction route generalizing cur with
    | nil => exact Or.inr (by rw [follow_nil, follow_nil]; rfl)
    | cons piece rest ih =>
      by_cases hdir : t.get? cur = some .dir
      · rw [follow_cons hdir, follow_cons hdir]
        split_ifs
        · exact ih
        · exact ih
        · exact Or.inr rfl
        · cases t.get? (cur ++ [piece]) with
          | none => exact Or.inr rfl
          | some node =>
            cases node with
            | dir | file _ _ | device _ => exact ih
            | link target =>
              cases links with
              | zero => exact Or.inl rfl
              | succ links =>
                rw [Nat.succ_add]
                exact hjump links (Nat.lt_succ_self _)
      · rw [follow_eq_travel, follow_eq_travel, travel, travel, if_pos hdir, if_pos hdir]
        exact Or.inr rfl

/-- The look-up of `p` from `cwd` and that of `q` from `here` end in the same way, unless the first
one is refused because the path is too long or too many links are on the way. -/
def SameLookup (t : Tree) (cwd : Loc) (p : Path) (here : Loc) (q : Path) : Prop :=
  t.resolve cwd p = .error .tooManyLinks ∨ t.resolve cwd p = .error .nameTooLong ∨
    (t.resolve cwd p).map Position.loc = (t.resolve here q).map Position.loc

/-- **A joined path leads where its second part leads from the directory of the first.** -/
theorem sameLookup_join (hp : t.resolve cwd p = .ok here) (hne : q.bytes ≠ []) :
    t.SameLookup cwd (p.join q) here.loc q := by
  unfold SameLookup
  cases habs : q.isAbsolute with
  | true =>
    have hstart (l : Loc) : q.start l = [] := by simp [Path.start, habs]
    rw [Path.join_of_isAbsolute habs]
    unfold resolve
    rw [hstart, hstart]
    exact Or.inr (Or.inr rfl)
  | false =>
    obtain ⟨hcheck, hfollow⟩ := resolve_ok hp
    have hstart : (p.join q).start cwd = p.start cwd := by
      simp only [Path.start, Path.isAbsolute_join (bytes_ne_of_checkPath hcheck) habs]
    have hfrom : q.start here.loc = here.loc := by simp [Path.start, habs]
    have hgo : t.follow maxLinks (p.start cwd) (p.join q).route =
        t.follow here.links here.loc q.route := by
      rw [Path.route_join habs hne, follow_append, follow_pieces_of_route hfollow]
      rfl
    unfold resolve
    rw [hstart, hgo, hfrom]
    rcases checkPath_join hcheck habs hne with hlong | hsame
    · rw [hlong]
      exact Or.inr (Or.inl rfl)
    · rw [hsame]
      cases checkPath q with
      | error e => exact Or.inr (Or.inr rfl)
      | ok _ =>
        obtain ⟨k, hk⟩ := Nat.exists_eq_add_of_le (links_le_of_follow hfollow)
        rw [hk]
        show t.follow here.links here.loc q.route = _ ∨ t.follow here.links here.loc q.route = _ ∨
          (t.follow here.links here.loc q.route).map _ = (t.follow (here.links + k) _ _).map _
        rcases follow_add k with hmany | hmore
        · exact Or.inl hmany
        · refine Or.inr (Or.inr ?_)
          rw [hmore]
          cases t.follow here.links here.loc q.route <;> rfl

theorem SameLookup.of_resolve {dir : Loc} (h : t.SameLookup cwd p dir q)
    (hp : t.resolve cwd p = .ok pos) :
    ∃ place, t.resolve dir q = .ok place ∧ place.loc = pos.loc := by
  unfold SameLookup at h
  rw [hp] at h
  rcases h with h | h | h
  · cases h
  · cases h
  · exact map_eq_ok h.symm

/-- A path with a slash at its end leads to a directory only. -/
theorem dir_of_endsWithSlash (hslash : p.endsWithSlash = true) (h : t.resolve cwd p = .ok pos) :
    t.get? pos.loc = some .dir := by
  obtain ⟨hcheck, hfollow⟩ := resolve_ok h
  by_cases hpieces : p.pieces = []
  · have habs := Path.isAbsolute_of_pieces_eq_nil (bytes_ne_of_checkPath hcheck) hpieces
    have hroute : p.route = [] := by simp [Path.route, hpieces]
    have hstart : p.start cwd = [] := by simp [Path.start, habs]
    rw [hroute, hstart, follow_nil] at hfollow
    cases hfollow
    exact get?_nil t
  · have hroute : p.route = p.pieces ++ [Name.here] := by simp [Path.route, hslash, hpieces]
    rw [hroute] at hfollow
    obtain ⟨mid, -, hend⟩ := follow_append_ok hfollow
    rw [follow_here hend]
    exact dir_of_follow_cons hend

/-- An empty path is joined to one of a directory. -/
theorem bytes_ne_of_isFile_join (h : t.isFile cwd (p.join q) = true) : q.bytes ≠ [] := by
  intro hq
  obtain ⟨pos, content, mode, hresolve, hget⟩ := isFile_iff.mp h
  have hbytes := bytes_ne_of_checkPath (resolve_ok hresolve).1
  have hjoin : (p.join q).bytes = p.bytes ++ p.separator := by
    rw [Path.bytes_join (by simp [Path.isAbsolute, hq]), hq, List.append_nil]
  have hslash : (p.join q).endsWithSlash = true := by
    unfold Path.endsWithSlash
    rw [hjoin] at hbytes ⊢
    unfold Path.separator at hbytes ⊢
    split_ifs at hbytes ⊢ with hsep
    · rw [List.append_nil] at hbytes ⊢
      simpa [Path.endsWithSlash, hbytes] using hsep
    · simp
  rw [dir_of_endsWithSlash hslash hresolve] at hget
  cases hget

end Tree

end Zipship
