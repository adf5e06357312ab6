import Zipship.Proofs.Clean.Again

/-!
# The bytes that cleaning frees

A run adds up the sizes of what it removes, each measured just before it goes. None of the removed
places is inside another, so the sizes are those at the start and nothing is counted twice. What
they come to is what the files of the project directory have lost, and the texts of the links that
were removed by themselves (`run_frees`): a link inside a removed directory holds no bytes. A file
is measured under its path. Where the operating system does not take that, the file is removed with
the directory it is in, but not counted.
-/

namespace Zipship

namespace Tree

variable {t : Tree} {cwd l root : Loc} {p base : Path} {names : List Name}

/-- The length of the text of the link at a location; nothing else has one. -/
def linkSizeAt (t : Tree) (l : Loc) : Nat :=
  match t.get? l with
  | some (.link target) => target.bytes.length
  | _ => 0

/-- The length of the text of the link that a path names. -/
def linkSize (t : Tree) (cwd : Loc) (p : Path) : Nat :=
  match t.locate cwd p with
  | .ok l => t.linkSizeAt l
  | .error _ => 0

theorem linkSize_of_locate (h : t.locate cwd p = .ok l) : t.linkSize cwd p = t.linkSizeAt l := by
  rw [linkSize, h]

/-- What a removal frees are the bytes of files, and the text of a link that is removed by itself.
-/
theorem sizeAt_eq (hcheck : checkPath (base.descend names) = .ok ⟨⟩) :
    t.sizeAt (base.descend names) (root ++ names) =
      t.weightAt (fileWeight base root) (root ++ names) + t.linkSizeAt (root ++ names) := by
  cases hget : t.get? (root ++ names) with
  | none => simp [sizeAt, linkSizeAt, hget, weightAt_of_get?_eq_none hget]
  | some node =>
    by_cases hnode : node = .dir
    · subst hnode
      have hweight : t.weightAt (fileWeight (base.descend names) (root ++ names)) (root ++ names) =
          t.weightAt (fileWeight base root) (root ++ names) :=
        weightAt_eq_of fun k node hk => fileWeight_descend hk
      simp only [sizeAt, linkSizeAt, hget, bytesBelow_eq hget, hweight, Nat.add_zero]
    · have hok : (checkPath (base.descend names)).isOk = true := by rw [hcheck]; rfl
      rw [weightAt_leaf hget hnode]
      cases node with
      | dir => exact absurd rfl hnode
      | file _ _ | link _ | device _ =>
        simp [sizeAt, linkSizeAt, hget, Node.size, fileWeight, Node.fileSize, hok]

/-- A removal frees no more than all that stands there holds. -/
theorem sizeAt_le (t : Tree) (p : Path) (l : Loc) :
    t.sizeAt p l ≤ t.weightAt (fun _ => Node.size) l := by
  cases hget : t.get? l with
  | none => simp [sizeAt, hget]
  | some node =>
    by_cases hnode : node = .dir
    · subst hnode
      have hle (k : Loc) (node : Node) : fileWeight p l k node ≤ node.size := by
        unfold fileWeight
        split_ifs
        · cases node <;> simp [Node.fileSize, Node.size]
        · exact Nat.zero_le _
      simp only [sizeAt, hget, bytesBelow_eq hget]
      exact weightAt_mono fun k node _ => hle k node
    · rw [weightAt_leaf hget hnode]
      cases node with
      | dir => exact absurd rfl hnode
      | file _ _ | link _ | device _ => simp [sizeAt, hget]

end Tree

namespace Clean

variable {t swept : Tree} {cwd root : Loc} {c : Config} {report : Report} {base : Path}
  {ls : List (List Name)}

/-! ## Adding up -/

/-- What is missing has no size. -/
theorem freed_present : (present t root base ls).foldr (fun e freed => e.2 + freed) 0 =
    (ls.map fun names => t.sizeAt (base.descend names) (root ++ names)).sum := by
  induction ls with
  | nil => rfl
  | cons names ls ih =>
    rw [List.map_cons, List.sum_cons, ← ih]
    cases hget : t.get? (root ++ names) <;> simp [present, Tree.sizeAt, hget]

/-- The links among some places, by the paths that lead there. -/
theorem linkSize_present
    (hlocate : ∀ names ∈ ls, (t.get? (root ++ names)).isSome →
      t.locate cwd (base.descend names) = .ok (root ++ names)) :
    (((present t root base ls).map Prod.fst).map (t.linkSize cwd)).sum =
      (ls.map fun names => t.linkSizeAt (root ++ names)).sum := by
  induction ls with
  | nil => rfl
  | cons names ls ih =>
    obtain ⟨hfirst, hmore⟩ := List.forall_mem_cons.mp hlocate
    rw [List.map_cons, List.sum_cons, ← ih hmore]
    cases hget : t.get? (root ++ names) with
    | none => simp [present, Tree.linkSizeAt, hget]
    | some node =>
      have hsize := Tree.linkSize_of_locate (hfirst (Option.isSome_of_mem hget))
      simp [present, hget, hsize]

/-! ## What a run frees -/

section Run

variable (hdir : t.get? root = some .dir) (hroot : c.root = root.path)
  (h : (run cwd c false).exec t = (.ok report, swept))

include hdir hroot h

/-- The paths that a run goes through lead to the places that they spell. -/
theorem locate_target {names : List Name} (hnames : names ∈ targets t root)
    (hsome : (t.get? (root ++ names)).isSome) :
    t.locate cwd (c.root.descend names) = .ok (root ++ names) := by
  have hcheck := (passable_of_run_ok hdir hroot h).target names hnames
  have hspell := (spells_root hdir hroot).descend (isPiece_of_mem_targets hdir hnames)
  obtain ⟨dir, n, heq, hparent, hn⟩ := reachable_of_mem_targets hdir hnames
  rw [heq] at hspell hsome ⊢
  rw [Tree.locate_spelled hspell hcheck hparent hn, if_pos hsome]

/-- **The bytes that cleaning frees.** They are those that the files of the project directory have
lost, of which the operating system takes the path, together with the texts of the links that are
themselves listed as removed. They come to no more than what was there, so they fit wherever its
size does. -/
theorem run_frees :
    swept.bytesBelow c.root root ≤ t.bytesBelow c.root root ∧
      report.bytesFreed = t.bytesBelow c.root root - swept.bytesBelow c.root root +
        (report.removed.map (t.linkSize cwd)).sum ∧
      report.bytesFreed ≤ t.weightAt (fun _ => Node.size) root := by
  have hpass := passable_of_run_ok hdir hroot h
  have hkept : swept.get? root = some .dir := get?_root_of_run_ok hdir hroot h
  have hlocate : ∀ names ∈ targets t root, (t.get? (root ++ names)).isSome →
      t.locate cwd (c.root.descend names) = .ok (root ++ names) := fun _ =>
    locate_target hdir hroot h
  rw [Tree.bytesBelow_eq hdir, Tree.bytesBelow_eq hkept]
  rw [exec_run hdir hroot hpass] at h
  obtain ⟨hreport, hswept⟩ := Prod.mk.inj h
  obtain rfl := Except.ok.inj hreport
  obtain rfl : t.eraseAll root (targets t root) = swept := hswept
  have hcount (weight : Loc → Node → Nat) :
      (t.eraseAll root (targets t root)).weightAt weight root +
      ((targets t root).map fun names => t.weightAt weight (root ++ names)).sum =
        t.weightAt weight root := Tree.weightAt_eraseAll targets_apart
  have hlost := hcount (Tree.fileWeight c.root root)
  have hheld := hcount fun _ => Node.size
  have hsplit : ((targets t root).map fun names =>
        t.sizeAt (c.root.descend names) (root ++ names)).sum =
      ((targets t root).map fun names =>
          t.weightAt (Tree.fileWeight c.root root) (root ++ names)).sum +
        ((targets t root).map fun names => t.linkSizeAt (root ++ names)).sum := by
    rw [← List.sum_map_add]
    exact congrArg List.sum (List.map_congr_left fun names hnames =>
      Tree.sizeAt_eq (hpass.target names hnames))
  have hle : ((targets t root).map fun names =>
        t.sizeAt (c.root.descend names) (root ++ names)).sum ≤
      ((targets t root).map fun names => t.weightAt (fun _ => Node.size) (root ++ names)).sum :=
    List.sum_le_sum fun names _ => t.sizeAt_le (c.root.descend names) (root ++ names)
  simp only [expected, freed_present, linkSize_present hlocate]
  omega

end Run

set_option maxRecDepth 100000 in
theorem run_frees_cluttered :
    ∃ report t', (run [] (Config.withRoot ⟨"/p"⟩) false).exec cluttered = (.ok report, t') ∧
      report.bytesFreed = 18 ∧
      t'.bytesBelow ⟨"/p"⟩ ["p"] ≤ cluttered.bytesBelow ⟨"/p"⟩ ["p"] ∧
      report.bytesFreed = cluttered.bytesBelow ⟨"/p"⟩ ["p"] - t'.bytesBelow ⟨"/p"⟩ ["p"] +
        (report.removed.map (cluttered.linkSize [])).sum ∧
      report.bytesFreed ≤ cluttered.weightAt (fun _ => Node.size) ["p"] := by
  have hdir : cluttered.get? ["p"] = some .dir := by decide +kernel
  have hroot : (Config.withRoot ⟨"/p"⟩).root = Loc.path ["p"] := by decide +kernel
  have hrun : ((run [] (Config.withRoot ⟨"/p"⟩) false).exec cluttered).1 =
      .ok ⟨[⟨"/p/target"⟩, ⟨"/p/src/__pycache__"⟩, ⟨"/p/src/b.pyo"⟩], 18, false⟩ := by
    decide +kernel
  generalize hafter : (run [] (Config.withRoot ⟨"/p"⟩) false).exec cluttered = after at hrun
  obtain ⟨result, t'⟩ := after
  obtain rfl : result = _ := hrun
  exact ⟨_, t', rfl, rfl, run_frees hdir hroot hafter⟩

/-- The way to a file under a path that the operating system does not take. -/
def longWay : Loc := "p" :: "target" :: List.replicate 16 (List.replicate 255 97)

/-- A project in which that file was built. -/
def buried : Tree :=
  ((List.range 18).foldl (fun t n => t.put (longWay.take (n + 1)) .dir) Tree.empty).put
    (longWay ++ [("f" : Name)]) (.file [49] 0o644)

set_option maxRecDepth 100000 in
/-- **A file can be removed without being counted**, if its path is too long. -/
theorem buried_file_is_not_counted :
    ∃ report t', (run [] (Config.withRoot ⟨"/p"⟩) false).exec buried = (.ok report, t') ∧
      report.removed = [⟨"/p/target"⟩] ∧ buried.get? ["p", "target"] = some .dir ∧
      report.bytesFreed = 0 ∧
      buried.weightAt (fun _ => Node.fileSize) ["p"] = 1 ∧
      t'.weightAt (fun _ => Node.fileSize) ["p"] = 0 := by
  have hrun : ((run [] (Config.withRoot ⟨"/p"⟩) false).exec buried).1 =
      .ok ⟨[⟨"/p/target"⟩], 0, false⟩ := by
    decide +kernel
  have hgone : ((run [] (Config.withRoot ⟨"/p"⟩) false).exec buried).2.weightAt
      (fun _ => Node.fileSize) ["p"] = 0 := by
    decide +kernel
  generalize (run [] (Config.withRoot ⟨"/p"⟩) false).exec buried = after at hrun hgone
  obtain ⟨result, t'⟩ := after
  obtain rfl : result = _ := hrun
  exact ⟨_, t', rfl, rfl, by decide +kernel, rfl, by decide +kernel, hgone⟩

end Clean

end Zipship
