import Zipship.Proofs.Tree.Edit

/-!
# Look-ups in two trees that differ at one place

A place that is no directory and no link only matters to the look-ups that end there. So two trees
that agree everywhere else lead the same paths to the same places (`AgreeOff.follow`,
`AgreeOff.leads`), and a path that ends at that place in one tree ends there in the other one as
well, if something is there.
-/

namespace Zipship.Tree

variable {t t' : Tree} {cwd cur place loc : Loc} {route names : List Name} {node : Node}
  {links : Nat} {p source : Path} {pos : Position}

/-- The place is not a directory, and not a link either. -/
def IsLeaf (t : Tree) (place : Loc) : Prop :=
  t.get? place ≠ some .dir ∧ ∀ target, t.get? place ≠ some (.link target)

/-- The two trees show the same everywhere except at one place, where neither has a directory or a
link. -/
structure AgreeOff (t t' : Tree) (place : Loc) : Prop where
  agree : ∀ l, l ≠ place → t'.get? l = t.get? l
  leaf : t.IsLeaf place
  leaf' : t'.IsLeaf place

/-- A look-up that succeeds goes the same way in a tree that shows all that it passes. At leaves the
two trees may differ, as long as something is there where the look-up ends. -/
theorem follow_of_subset {P : Loc → Prop}
    (hsub : ∀ l node, ¬ P l → t.get? l = some node → t'.get? l = some node)
    (hleaf : ∀ l, P l → t.IsLeaf l ∧ t'.IsLeaf l) (hf : t.follow links cur route = .ok pos)
    (hpos : P pos.loc → (t'.get? pos.loc).isSome) : t'.follow links cur route = .ok pos := by
  induction links using Nat.strong_induction_on generalizing cur route with
  | _ links hjump =>
    induction route generalizing cur with
    | nil =>
      rw [follow_nil] at hf ⊢
      exact hf
    | cons piece rest ih =>
      have hdir := dir_of_follow_cons hf
      have hdir' : t'.get? cur = some .dir := hsub cur _ (fun h => (hleaf cur h).1.1 hdir) hdir
      rw [follow_cons hdir] at hf
      rw [follow_cons hdir']
      split_ifs at hf ⊢ with hhere hup hsize
      · exact ih hf
      · exact ih hf
      · cases hget : t.get? (cur ++ [piece]) with
        | none =>
          rw [hget] at hf
          cases hf
        | some node =>
          rw [hget] at hf
          by_cases hplace : P (cur ++ [piece])
          · -- the look-up cannot go on from a leaf, so it ends there
            obtain ⟨⟨hnodir, hnolink⟩, hnodir', hnolink'⟩ := hleaf _ hplace
            cases node with
            | dir => exact absurd hget hnodir
            | link target => exact absurd hget (hnolink target)
            | file _ _ | device _ =>
              cases rest with
              | cons n rest => exact absurd (dir_of_follow_cons hf) hnodir
              | nil =>
                simp only [follow_nil] at hf
                cases hf
                obtain ⟨node', hnode'⟩ := Option.isSome_iff_exists.mp (hpos hplace)
                rw [hnode']
                cases node' with
                | dir => exact absurd hnode' hnodir'
                | link target => exact absurd hnode' (hnolink' target)
                | file _ _ | device _ => exact follow_nil
          · rw [hsub _ _ hplace hget]
            cases node with
            | dir | file _ _ | device _ => exact ih hf
            | link target =>
              cases links with
              | zero => cases hf
              | succ links => exact hjump links (Nat.lt_succ_self _) hf

namespace AgreeOff

theorem symm (h : AgreeOff t t' place) : AgreeOff t' t place :=
  ⟨fun l hl => (h.agree l hl).symm, h.leaf', h.leaf⟩

theorem ne_of_isDir (h : AgreeOff t t' place) (hdir : t.get? cur = some .dir) : cur ≠ place := by
  rintro rfl
  exact h.leaf.1 hdir

/-- A look-up goes the same way in both trees, unless it ends at a place that the other one has not.
-/
theorem follow (h : AgreeOff t t' place) (hf : t.follow links cur route = .ok pos)
    (hpos : pos.loc = place → (t'.get? place).isSome) : t'.follow links cur route = .ok pos := by
  refine follow_of_subset (P := (· = place)) (fun l node hl hget => ?_) ?_ hf fun he => ?_
  · rw [h.agree l hl, hget]
  · rintro l rfl
    exact ⟨h.leaf, h.leaf'⟩
  · rw [show pos.loc = place from he]
    exact hpos he

theorem resolve (h : AgreeOff t t' place) (hr : t.resolve cwd p = .ok pos)
    (hpos : pos.loc = place → (t'.get? place).isSome) : t'.resolve cwd p = .ok pos := by
  obtain ⟨hcheck, hf⟩ := resolve_ok hr
  unfold Tree.resolve
  rw [hcheck]
  exact h.follow hf hpos

/-- Names that lead to something that both trees have lead there in both. -/
theorem leads (h : AgreeOff t t' place) (hl : t.Leads cwd source names loc node)
    (hloc : loc = place → (t'.get? place).isSome) :
    ∃ node', t'.Leads cwd source names loc node' ∧ (loc ≠ place → node' = node) ∧
      (node' = .dir ↔ node = .dir) := by
  obtain ⟨start, stop, hs, hf, rfl, hget⟩ := hl
  have hstart : start.loc = place → (t'.get? place).isSome := by
    intro heq
    cases names with
    | nil =>
      rw [follow_nil] at hf
      cases hf
      exact hloc heq
    | cons n names => exact absurd heq (h.ne_of_isDir (dir_of_follow_cons hf))
  have hsome : (t'.get? stop.loc).isSome := by
    by_cases heq : stop.loc = place
    · rw [heq]
      exact hloc heq
    · rw [h.agree _ heq, hget]
      rfl
  obtain ⟨node', hnode'⟩ := Option.isSome_iff_exists.mp hsome
  refine ⟨node', ⟨start, stop, h.resolve hs hstart, h.follow hf hloc, rfl, hnode'⟩, ?_, ?_⟩
  · intro heq
    rw [h.agree _ heq, hget] at hnode'
    exact (Option.some.inj hnode').symm
  · by_cases heq : stop.loc = place
    · have hdir : node ≠ .dir := fun hd => h.ne_of_isDir (hd ▸ hget) heq
      have hdir' : node' ≠ .dir := fun hd => h.symm.ne_of_isDir (hd ▸ hnode') heq
      exact iff_of_false hdir' hdir
    · rw [h.agree _ heq, hget] at hnode'
      rw [Option.some.inj hnode']

end AgreeOff

/-- Two trees with a file at a place agree off it, if they agree elsewhere. -/
theorem agreeOff_of_files {old content : Bytes} {bits mode : Nat}
    (hget : t.get? place = some (.file old bits))
    (hget' : t'.get? place = some (.file content mode))
    (hframe : ∀ k, k ≠ place → t'.get? k = t.get? k) : AgreeOff t t' place :=
  ⟨hframe, by simp [IsLeaf, hget], by simp [IsLeaf, hget']⟩

/-- A file that gets other permission bits keeps its content, and the path still leads there. -/
theorem resolve_setMode {content : Bytes} {old mode : Nat} (hresolve : t.resolve cwd p = .ok pos)
    (hget : t.get? pos.loc = some (.file content old))
    (h : setMode cwd p mode t = .ok (⟨⟩, t')) :
    t'.resolve cwd p = .ok pos ∧ t'.get? pos.loc = some (.file content mode) := by
  unfold setMode at h
  rw [hresolve] at h
  obtain rfl : t' = t.put pos.loc (.file content mode) := by
    simp only [hget, bind, Except.bind] at h
    cases h
    rfl
  have hadmits : t.Admits pos.loc (.file content mode) := admits_of_file hget
  have hset : (t.put pos.loc (.file content mode)).get? pos.loc = some (.file content mode) := by
    rw [get?_put hadmits, if_pos rfl]
  have hagree : AgreeOff t (t.put pos.loc (.file content mode)) pos.loc :=
    agreeOff_of_files hget hset fun k hk => by rw [get?_put hadmits, if_neg hk]
  exact ⟨hagree.resolve hresolve fun _ => by simp [hset], hset⟩

/-- Creating a file changes one place only, and there was no directory and no link. -/
theorem agreeOff_create {opened : Tree} (h : create cwd p t = .ok (place, opened)) :
    AgreeOff t opened place := by
  obtain ⟨hagree, ⟨mode, hget', ⟨hget, -⟩ | ⟨old, hget⟩⟩ | ⟨d, hget, hget'⟩⟩ := create_ok h
  · exact ⟨hagree, by simp [IsLeaf, hget], by simp [IsLeaf, hget']⟩
  · exact ⟨hagree, by simp [IsLeaf, hget], by simp [IsLeaf, hget']⟩
  · exact ⟨hagree, by simp [IsLeaf, hget], by simp [IsLeaf, hget']⟩

/-- Where a file was created, there is something. -/
theorem isSome_create {opened : Tree} (h : create cwd p t = .ok (place, opened)) :
    (opened.get? place).isSome := by
  obtain ⟨-, ⟨mode, hget, -⟩ | ⟨d, -, hget⟩⟩ := create_ok h
  · exact Option.isSome_of_mem hget
  · exact Option.isSome_of_mem hget

/-- A look-up that succeeds goes the same way in a tree that shows more. -/
theorem follow_ok_of_subset (hsub : ∀ l node, t.get? l = some node → t'.get? l = some node)
    (hf : t.follow links cur route = .ok pos) : t'.follow links cur route = .ok pos :=
  follow_of_subset (P := fun _ => False) (fun l node _ => hsub l node) (by simp) hf (by simp)

/-- A tree leads wherever a tree leads that shows less. -/
theorem resolve_of_subset (hsub : ∀ l node, t.get? l = some node → t'.get? l = some node)
    (hr : t.resolve cwd p = .ok pos) : t'.resolve cwd p = .ok pos := by
  obtain ⟨hcheck, hf⟩ := resolve_ok hr
  unfold resolve
  rw [hcheck]
  exact follow_ok_of_subset hsub hf

/-! ## The way to a new file -/

/-- Where a file was created there is a way to it. -/
theorem AgreeOff.follow_spot {fuel : Nat} (h : AgreeOff t t' place)
    (hsome : (t'.get? place).isSome) (hspot : t.creationSpot fuel links cur route = .ok place) :
    ∃ pos, t'.follow links cur route = .ok pos ∧ pos.loc = place := by
  induction fuel generalizing links cur route with
  | zero => cases hspot
  | succ fuel ih =>
    rw [creationSpot] at hspot
    obtain ⟨⟨pos, last⟩, hlast, hend⟩ := bind_eq_ok.mp hspot
    cases last with
    | none => cases hend
    | some last =>
      obtain ⟨above, rfl, hhere, hup, hsize, hfollow, hdir⟩ := resolveLast_some hlast
      have hne : pos.loc ≠ place := h.ne_of_isDir hdir
      have hdir' : t'.get? pos.loc = some .dir := by rw [h.agree _ hne, hdir]
      rw [follow_append, h.follow hfollow fun he => absurd he hne]
      show ∃ stop, t'.follow pos.links pos.loc [last] = .ok stop ∧ stop.loc = place
      rw [follow_cons hdir', if_neg hhere, if_neg hup, if_neg (Nat.not_lt.mpr hsize)]
      simp only at hend
      split at hend
      · cases hend
      · rename_i target hlink
        rw [h.agree _ fun he => h.leaf.2 target (he ▸ hlink), hlink]
        cases hlinks : pos.links with
        | zero =>
          rw [hlinks] at hend
          cases hend
        | succ left =>
          rw [hlinks] at hend
          have hway := ih hend
          rwa [← List.append_nil target.route] at hway
      · cases hend
        obtain ⟨node, hnode⟩ := Option.isSome_iff_exists.mp hsome
        rw [hnode]
        cases node with
        | dir => exact absurd hnode h.leaf'.1
        | link target => exact absurd hnode (h.leaf'.2 target)
        | file _ _ | device _ => exact ⟨_, follow_nil, rfl⟩

/-- A path leads to the file that was created by it. -/
theorem resolve_create {opened : Tree} (h : create cwd p t = .ok (place, opened)) :
    ∃ pos, opened.resolve cwd p = .ok pos ∧ pos.loc = place := by
  obtain ⟨hcheck, -, hspot⟩ := spot_of_create h
  unfold resolve
  rw [hcheck]
  exact (agreeOff_create h).follow_spot (isSome_create h) hspot

/-- No file is created where a directory is. -/
theorem not_isDir_of_create {opened : Tree} (h : create cwd p t = .ok (place, opened)) :
    t.stat cwd p ≠ .ok .dir := by
  intro hstat
  obtain ⟨pos, hresolve, hdir⟩ := stat_eq_ok.mp hstat
  have hagree := agreeOff_create h
  have hne := hagree.ne_of_isDir hdir
  obtain ⟨stop, hstop, hplace⟩ := resolve_create h
  rw [hagree.resolve hresolve fun he => absurd he hne] at hstop
  cases hstop
  exact hne hplace

end Zipship.Tree
