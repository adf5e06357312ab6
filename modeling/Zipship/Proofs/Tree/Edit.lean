import Zipship.Proofs.Tree.Lookup
import Zipship.Tree.Edit

/-!
# What edits do

A computation on a tree that succeeded did so step by step, and each step left a tree for the next
one. The laws of the first part name those trees: from the success of a composed computation they
give the success of its parts.

The second part says what creating and writing a file does to the view of a tree: one place changes,
which is a file or a device (`create_ok`, `write_ok`).
-/

namespace Zipship.Edit

variable {ε δ α β : Type} {x : Edit ε α} {f : α → Edit ε β} {a : α} {b : β} {t t' : Tree}

theorem exec_bind_of_ok (h : x.exec t = (.ok a, t')) : (x >>= f).exec t = (f a).exec t' := by
  rw [exec_bind, h]

theorem exec_bind_of_error {e : ε} (h : x.exec t = (.error e, t')) :
    (x >>= f).exec t = (.error e, t') := by
  rw [exec_bind, h]

theorem exec_step_of_ok {change : Tree → Except ε (α × Tree)} (h : change t = .ok (a, t')) :
    (step change).exec t = (.ok a, t') := by
  rw [exec_step, h]

theorem exec_onError_of_ok {wording : ε → δ} (h : x.exec t = (.ok a, t')) :
    (x.onError wording).exec t = (.ok a, t') := by
  rw [exec_onError, h]

theorem exec_bind_ok (h : (x >>= f).exec t = (.ok b, t')) :
    ∃ a t₁, x.exec t = (.ok a, t₁) ∧ (f a).exec t₁ = (.ok b, t') := by
  rw [exec_bind] at h
  cases hx : x.exec t with
  | mk r t₁ =>
    rw [hx] at h
    cases r with
    | ok a => exact ⟨a, t₁, rfl, h⟩
    | error e => cases h

/-- A computation that fails did so in its first part, or in the second one after that. -/
theorem exec_bind_error {e : ε} (h : (x >>= f).exec t = (.error e, t')) :
    x.exec t = (.error e, t') ∨
      ∃ a t₁, x.exec t = (.ok a, t₁) ∧ (f a).exec t₁ = (.error e, t') := by
  rw [exec_bind] at h
  cases hx : x.exec t with
  | mk r t₁ =>
    rw [hx] at h
    cases r with
    | ok a => exact Or.inr ⟨a, t₁, rfl, h⟩
    | error d =>
      cases h
      exact Or.inl rfl

theorem exec_pure_ok {c : α} (h : (pure a : Edit ε α).exec t = (.ok c, t')) : c = a ∧ t' = t := by
  rw [exec_pure] at h
  cases h
  exact ⟨rfl, rfl⟩

theorem exec_get : (get : Edit ε Tree).exec t = (.ok t, t) := rfl

theorem exec_get_ok {s : Tree} (h : (get : Edit ε Tree).exec t = (.ok s, t')) : s = t ∧ t' = t := by
  cases h
  exact ⟨rfl, rfl⟩

theorem exec_inspect_ok {look : Tree → Except ε α} (h : (inspect look).exec t = (.ok a, t')) :
    look t = .ok a ∧ t' = t := by
  rw [exec_inspect] at h
  obtain ⟨h1, rfl⟩ := Prod.mk.inj h
  exact ⟨h1, rfl⟩

theorem exec_inspect_error {look : Tree → Except ε α} {e : ε}
    (h : (inspect look).exec t = (.error e, t')) : look t = .error e ∧ t' = t := by
  rw [exec_inspect] at h
  obtain ⟨h1, rfl⟩ := Prod.mk.inj h
  exact ⟨h1, rfl⟩

theorem exec_step_ok {change : Tree → Except ε (α × Tree)}
    (h : (step change).exec t = (.ok a, t')) : change t = .ok (a, t') := by
  rw [exec_step] at h
  split at h
  · cases h
    assumption
  · cases h

/-- A step that fails changes nothing. -/
theorem exec_step_error {change : Tree → Except ε (α × Tree)} {e : ε}
    (h : (step change).exec t = (.error e, t')) : change t = .error e ∧ t' = t := by
  rw [exec_step] at h
  split at h
  · cases h
  · cases h
    exact ⟨by assumption, rfl⟩

theorem exec_onError_ok {wording : ε → δ} (h : (x.onError wording).exec t = (.ok a, t')) :
    x.exec t = (.ok a, t') := by
  rw [exec_onError] at h
  split at h
  · cases h
    assumption
  · cases h

theorem exec_onError_error {wording : ε → δ} {d : δ}
    (h : (x.onError wording).exec t = (.error d, t')) :
    ∃ e, x.exec t = (.error e, t') ∧ wording e = d := by
  rw [exec_onError] at h
  split at h
  · cases h
  · cases h
    exact ⟨_, by assumption, rfl⟩

end Zipship.Edit

namespace Zipship.Tree

variable {t t' : Tree} {cwd start l k : Loc} {p : Path} {route : List Name} {last n : Name}
  {links fuel mode : Nat} {pos : Position} {content : Bytes}

/-! ## The place of a new file -/

/-- A route as paths and links have them. -/
def Passable (route : List Name) : Prop := ∀ n ∈ route, n.IsPiece ∧ 0 ∉ n

theorem passable_route (hp : p.hasNul = false) : Passable p.route := by
  intro n hn
  rcases Path.mem_pieces_of_mem_route hn with hn | rfl
  · exact ⟨Path.isPiece_of_mem_pieces hn, Path.no_nul_of_mem_pieces hp hn⟩
  · exact ⟨⟨by decide, by decide⟩, by decide⟩

theorem hasNul_of_checkPath (h : checkPath p = .ok ⟨⟩) : p.hasNul = false := by
  unfold checkPath at h
  by_cases hp : p.hasNul = true
  · rw [if_pos hp] at h
    cases h
  · exact Bool.eq_false_iff.mpr hp

/-- A last piece that is not followed stands behind a route to a directory. -/
theorem resolveLast_some (h : t.resolveLast links start route = .ok (pos, some last)) :
    ∃ above, route = above ++ [last] ∧ last ≠ Name.here ∧ last ≠ Name.up ∧
      last.length ≤ maxNameBytes ∧ t.follow links start above = .ok pos ∧
      t.get? pos.loc = some .dir := by
  unfold resolveLast at h
  cases hlast : route.getLast? with
  | none =>
    rw [hlast] at h
    cases h
  | some name =>
    rw [hlast] at h
    simp only at h
    by_cases hdots : name = Name.here ∨ name = Name.up
    · rw [if_pos hdots] at h
      obtain ⟨_, -, hpos⟩ := bind_eq_ok.mp h
      cases hpos
    · rw [if_neg hdots] at h
      obtain ⟨found, hfollow, hpos⟩ := bind_eq_ok.mp h
      split_ifs at hpos with hdir hsize
      cases hpos
      rw [not_or] at hdots
      have hroute := (List.dropLast_append_getLast? last hlast).symm
      exact ⟨_, hroute, hdots.1, hdots.2, Nat.le_of_not_lt hsize, hfollow, not_not.mp hdir⟩

/-- The last piece of a route is a name in a directory. -/
theorem resolveLast_ok (hroute : Passable route)
    (h : t.resolveLast links start route = .ok (pos, some last)) :
    t.get? pos.loc = some .dir ∧ last.valid = true := by
  obtain ⟨above, rfl, hhere, hup, hsize, -, hdir⟩ := resolveLast_some h
  obtain ⟨hpiece, hnul⟩ := hroute last (by simp)
  exact ⟨hdir, Name.valid_iff.mpr ⟨⟨hpiece, hhere, hup⟩, hnul, hsize⟩⟩

theorem hasNul_of_valid (hp : p.valid = true) : p.hasNul = false := by
  simp only [Path.valid, Bool.and_eq_true, Bool.not_eq_true'] at hp
  exact hp.1.1

/-- A file is created in a directory, where no directory and no link is. -/
theorem creationSpot_ok (hroute : Passable route)
    (h : t.creationSpot fuel links start route = .ok l) :
    (∃ dir n, l = dir ++ [n] ∧ t.get? dir = some .dir ∧ n.valid = true) ∧
      t.get? l ≠ some .dir ∧ ∀ target, t.get? l ≠ some (.link target) := by
  induction fuel generalizing links start route with
  | zero => cases h
  | succ fuel ih =>
    rw [creationSpot] at h
    obtain ⟨⟨pos, last⟩, hlast, h⟩ := bind_eq_ok.mp h
    cases last with
    | none => cases h
    | some last =>
      obtain ⟨hdir, hvalid⟩ := resolveLast_ok hroute hlast
      simp only at h
      split at h
      · cases h
      · rename_i target hlink
        split at h
        · cases h
        · exact ih (passable_route (hasNul_of_valid (valid_of_get?_link hlink))) h
      · rename_i hnodir hnolink
        cases h
        exact ⟨⟨pos.loc, last, rfl, hdir, hvalid⟩, hnodir, hnolink⟩

/-! ## Creating and writing -/

theorem admits_child {node : Node} (hdir : t.get? l = some .dir) (hn : n.valid = true)
    (hnode : node.valid = true) (hfree : t.get? (l ++ [n]) = some .dir → node = .dir) :
    t.Admits (l ++ [n]) node := by
  refine ⟨by simp, ?_, ?_, hfree, hnode⟩
  · rw [List.getLast?_concat]
    exact hn
  · rwa [List.dropLast_concat]

theorem admits_file (hdir : t.get? l = some .dir) (hn : n.valid = true)
    (hfree : t.get? (l ++ [n]) ≠ some .dir) : t.Admits (l ++ [n]) (.file content mode) :=
  admits_child hdir hn rfl fun h => absurd h hfree

/-- A file may get another content and other permission bits. -/
theorem admits_of_file {old : Bytes} {bits : Nat} (hget : t.get? l = some (.file old bits)) :
    t.Admits l (.file content mode) := by
  have hl : l ≠ [] := by
    rintro rfl
    rw [get?_nil] at hget
    cases hget
  obtain ⟨dir, n, rfl⟩ : ∃ dir n, l = dir ++ [n] := ⟨_, _, (List.dropLast_concat_getLast hl).symm⟩
  obtain ⟨hdir, hn⟩ := parent_of_get? hget
  exact admits_file hdir hn (by simp [hget])

/-- What is created is created at its spot. -/
theorem spot_of_create (h : create cwd p t = .ok (l, t')) :
    checkPath p = .ok ⟨⟩ ∧ p.endsWithSlash = false ∧
      t.creationSpot (maxLinks + 1) maxLinks (p.start cwd) p.route = .ok l := by
  unfold create at h
  obtain ⟨⟨⟩, hcheck, h⟩ := bind_eq_ok.mp h
  by_cases hslash : p.endsWithSlash = true
  · rw [if_pos hslash] at h
    obtain ⟨_, -, h⟩ := bind_eq_ok.mp h
    cases h
  · rw [if_neg hslash] at h
    obtain ⟨spot, hspot, h⟩ := bind_eq_ok.mp h
    have hl : l = spot := by
      cases hget : t.get? spot with
      | none =>
        rw [hget] at h
        cases h
        rfl
      | some node =>
        rw [hget] at h
        cases node <;> cases h <;> rfl
    exact ⟨hcheck, Bool.eq_false_iff.mpr hslash, hl ▸ hspot⟩

/-- What creating a file does: there is an empty file in the end, or there is a device as before,
and nothing else is changed. -/
theorem create_ok (h : create cwd p t = .ok (l, t')) :
    (∀ k, k ≠ l → t'.get? k = t.get? k) ∧
      ((∃ mode, t'.get? l = some (.file [] mode) ∧
          (t.get? l = none ∧ mode = newFileMode ∨ ∃ old, t.get? l = some (.file old mode))) ∨
        ∃ d, t.get? l = some (.device d) ∧ t'.get? l = some (.device d)) := by
  unfold create at h
  obtain ⟨⟨⟩, hcheck, h⟩ := bind_eq_ok.mp h
  split_ifs at h
  · obtain ⟨_, -, h⟩ := bind_eq_ok.mp h
    cases h
  · obtain ⟨place, hspot, h⟩ := bind_eq_ok.mp h
    obtain ⟨⟨dir, n, rfl, hdir, hn⟩, hnodir, hnolink⟩ :=
      creationSpot_ok (passable_route (hasNul_of_checkPath hcheck)) hspot
    have hadmits (content : Bytes) (mode : Nat) : t.Admits (dir ++ [n]) (.file content mode) :=
      admits_file hdir hn hnodir
    cases hget : t.get? (dir ++ [n]) with
    | none =>
      rw [hget] at h
      cases h
      refine ⟨fun k hk => by rw [get?_put (hadmits _ _), if_neg hk], Or.inl ⟨newFileMode, ?_⟩⟩
      exact ⟨by rw [get?_put (hadmits _ _), if_pos rfl], Or.inl ⟨hget, rfl⟩⟩
    | some node =>
      rw [hget] at h
      cases node with
      | dir => exact absurd hget hnodir
      | link target => exact absurd hget (hnolink target)
      | file old mode =>
        cases h
        refine ⟨fun k hk => by rw [get?_put (hadmits _ _), if_neg hk], Or.inl ⟨mode, ?_⟩⟩
        exact ⟨by rw [get?_put (hadmits _ _), if_pos rfl], Or.inr ⟨old, hget⟩⟩
      | device d =>
        cases h
        exact ⟨fun _ _ => rfl, Or.inr ⟨d, hget, hget⟩⟩

theorem write_of_file {old : Bytes} (hget : t.get? l = some (.file old mode)) :
    write l content t = .ok (⟨⟩, t.put l (.file content mode)) := by
  unfold write
  rw [hget]

/-- Only the one device refuses what is written to it. -/
theorem exists_write (hget : t.get? l ≠ some (.device .full)) (content : Bytes) :
    ∃ t', write l content t = .ok (⟨⟩, t') := by
  unfold write
  split
  · exact ⟨_, rfl⟩
  · exact absurd (by assumption) hget
  · exact ⟨_, rfl⟩

/-- Writing to a file gives it the content, and changes nothing else. -/
theorem write_file {old : Bytes} (hget : t.get? l = some (.file old mode))
    (h : write l content t = .ok (⟨⟩, t')) :
    t'.get? l = some (.file content mode) ∧ ∀ k, k ≠ l → t'.get? k = t.get? k := by
  have hadmits : t.Admits l (.file content mode) := admits_of_file hget
  rw [write_of_file hget] at h
  cases h
  exact ⟨by rw [get?_put hadmits, if_pos rfl], fun k hk => by rw [get?_put hadmits, if_neg hk]⟩

/-- Only the one device that swallows what is written takes something, and nothing is changed. -/
theorem write_device {d : Device} (hget : t.get? l = some (.device d)) (hne : content ≠ [])
    (h : write l content t = .ok (⟨⟩, t')) : d = .null ∧ t' = t := by
  unfold write at h
  rw [hget] at h
  cases d with
  | null =>
    cases h
    exact ⟨rfl, rfl⟩
  | full =>
    simp only at h
    rw [if_neg (by simpa using hne)] at h
    cases h

/-- What creating a file and writing something to it does: the file holds it, unless that was the
device that swallows everything. -/
theorem create_write_ok {opened : Tree} (hcreate : create cwd p t = .ok (l, opened))
    (hne : content ≠ []) (hwrite : write l content opened = .ok (⟨⟩, t')) :
    (∀ k, k ≠ l → t'.get? k = t.get? k) ∧
      ((∃ mode, t'.get? l = some (.file content mode)) ∨ t'.get? l = some (.device .null)) := by
  obtain ⟨hagree, ⟨mode, hget, -⟩ | ⟨d, -, hget⟩⟩ := create_ok hcreate
  · obtain ⟨hfile, hframe⟩ := write_file hget hwrite
    exact ⟨fun k hk => by rw [hframe k hk, hagree k hk], Or.inl ⟨mode, hfile⟩⟩
  · obtain ⟨rfl, rfl⟩ := write_device hget hne hwrite
    exact ⟨hagree, Or.inr hget⟩

theorem read_of_stat (h : t.stat cwd p = .ok (.file content mode)) :
    t.read cwd p = .ok content := by
  unfold read
  rw [h]
  rfl

/-! ## Canonical spellings -/

/-- What has a canonical spelling is there, and is not a link. -/
theorem canonicalize_ok {q : Path} (h : t.canonicalize cwd p = .ok (l, q)) :
    q = l.path ∧ ∃ node, t.get? l = some node ∧ ∀ target, node ≠ .link target := by
  obtain ⟨pos, hresolve, heq⟩ := bind_eq_ok.mp h
  cases heq
  exact ⟨rfl, get?_of_resolve hresolve⟩

/-! ## Files in a directory -/

theorem checkPath_eq_ok : checkPath p = .ok ⟨⟩ ↔
    p.hasNul = false ∧ p.bytes ≠ [] ∧ p.bytes.length ≤ maxPathBytes := by
  unfold checkPath
  split_ifs with hnul hempty hsize
  · simp [hnul]
  · simp [by simpa using hempty]
  · simp [Nat.not_le.mpr hsize]
  · simpa [hnul] using ⟨by simpa using hempty, Nat.le_of_not_lt hsize⟩

/-- A path is not refused if what goes on from it is not. -/
theorem checkPath_of_child (hp : p.bytes ≠ []) (hn : n.IsPiece)
    (h : checkPath (p.child n) = .ok ⟨⟩) : checkPath p = .ok ⟨⟩ := by
  rw [Path.child_eq hn, checkPath_eq_ok] at h
  obtain ⟨hnul, -, hsize⟩ := h
  refine checkPath_eq_ok.mpr ⟨?_, hp, ?_⟩
  · simp only [Path.hasNul, List.contains_eq_mem, List.mem_append, decide_eq_false_iff_not,
      not_or] at hnul ⊢
    exact hnul.1.1
  · simp only [List.length_append] at hsize
    omega

/-- An entry of what holds no end of a string is refused for the length of its path only. -/
theorem checkPath_child_of_hasNul (hp : p.hasNul = false) (hn : n.IsPiece)
    (hnul : 0 ∉ n) (hsize : (p.child n).bytes.length ≤ maxPathBytes) :
    checkPath (p.child n) = .ok ⟨⟩ := by
  refine checkPath_eq_ok.mpr ⟨?_, Path.bytes_child_ne hn, hsize⟩
  have hslash : 0 ∉ p.separator := by
    unfold Path.separator
    split_ifs <;> decide
  simp only [Path.hasNul, List.contains_eq_mem, decide_eq_false_iff_not] at hp ⊢
  rw [Path.child_eq hn]
  simp only [List.mem_append, not_or]
  exact ⟨⟨hp, hslash⟩, hnul⟩

/-- What goes on from a path that is not refused is refused for its length only. -/
theorem checkPath_child (h : checkPath p = .ok ⟨⟩) (hn : n.IsPiece) (hnul : 0 ∉ n)
    (hsize : (p.child n).bytes.length ≤ maxPathBytes) : checkPath (p.child n) = .ok ⟨⟩ :=
  checkPath_child_of_hasNul (hasNul_of_checkPath h) hn hnul hsize

theorem checkPath_descend {names : List Name} (h : checkPath p = .ok ⟨⟩)
    (hnames : ∀ n ∈ names, n.valid = true)
    (hsize : (p.descend names).bytes.length ≤ maxPathBytes) :
    checkPath (p.descend names) = .ok ⟨⟩ := by
  induction names using List.reverseRecOn with
  | nil => exact h
  | append_singleton names n ih =>
    obtain ⟨hn, hnul, -⟩ := Name.valid_iff.mp (hnames n (by simp))
    rw [Path.descend_snoc] at hsize ⊢
    refine checkPath_child (ih (fun m hm => hnames m (by simp [hm])) ?_) hn.toIsPiece hnul hsize
    rw [Path.child_eq hn.toIsPiece] at hsize
    simp only [List.length_append] at hsize
    omega

theorem route_child (hn : n.IsPiece) : (p.child n).route = p.pieces ++ [n] := by
  rw [Path.route, Path.endsWithSlash_child hn, Path.pieces_child hn]
  rfl

theorem start_child (hp : p.bytes ≠ []) (hn : n.IsPiece) : (p.child n).start cwd = p.start cwd := by
  unfold Path.start
  rw [Path.child, Path.isAbsolute_join hp (Path.isAbsolute_of_isPiece hn)]

/-- Of an entry of a directory that a path leads to, what a look-up takes as the last piece. -/
theorem resolveLast_child (hn : n.IsEntry) (hp : t.resolve cwd p = .ok pos)
    (hdir : t.get? pos.loc = some .dir) :
    t.resolveLast maxLinks ((p.child n).start cwd) (p.child n).route =
      if maxNameBytes < n.length then .error .nameTooLong else .ok (pos, some n) := by
  obtain ⟨hcheck, hfollow⟩ := resolve_ok hp
  have hpieces := follow_pieces_of_route hfollow
  rw [start_child (bytes_ne_of_checkPath hcheck) hn.toIsPiece, route_child hn.toIsPiece]
  unfold resolveLast
  rw [List.getLast?_concat]
  simp only [hn.ne_here, hn.ne_up, or_self, if_false, List.dropLast_concat, hpieces]
  show (if t.get? pos.loc ≠ some .dir then _ else _) = _
  rw [if_neg (by simp [hdir])]
  rfl

/-- A file that is created in a directory is its entry of the name, if that is no link. -/
theorem loc_of_create_child (hn : n.IsEntry) (hp : t.resolve cwd p = .ok pos)
    (hdir : t.get? pos.loc = some .dir)
    (hlink : ∀ target, t.get? (pos.loc ++ [n]) ≠ some (.link target))
    (h : create cwd (p.child n) t = .ok (l, t')) : l = pos.loc ++ [n] := by
  obtain ⟨-, -, hspot⟩ := spot_of_create h
  rw [creationSpot, resolveLast_child hn hp hdir] at hspot
  obtain ⟨⟨mid, last⟩, hlast, hspot⟩ := bind_eq_ok.mp hspot
  split_ifs at hlast
  cases hlast
  simp only at hspot
  split at hspot
  · cases hspot
  · rename_i target hget
    exact absurd hget (hlink target)
  · cases hspot
    rfl

/-- In a directory that a path leads to, a look-up that leaves links alone finds what is there. -/
theorem locate_child (hn : n.valid = true) (hp : t.resolve cwd p = .ok pos)
    (hdir : t.get? pos.loc = some .dir) (hc : checkPath (p.child n) = .ok ⟨⟩) :
    t.locate cwd (p.child n) =
      if (t.get? (pos.loc ++ [n])).isSome then .ok (pos.loc ++ [n]) else .error .notFound := by
  unfold locate
  rw [hc, resolveLast_child (Name.isEntry_of_valid hn) hp hdir,
    if_neg (Nat.not_lt.mpr (Name.length_le_of_valid hn))]
  rfl

/-- Where a file was created in a directory, the path of the directory leads to one, and the file is
in there, unless a link leads on from there. -/
theorem create_child_ok (hp : p.bytes ≠ []) (hslash : p.endsWithSlash = false) (hn : n.IsEntry)
    (h : create cwd (p.child n) t = .ok (l, t')) :
    ∃ pos, t.resolve cwd p = .ok pos ∧ t.get? pos.loc = some .dir ∧
      (l = pos.loc ++ [n] ∨ ∃ target, t.get? (pos.loc ++ [n]) = some (.link target)) := by
  have hpiece := hn.toIsPiece
  obtain ⟨hcheck, -, hspot⟩ := spot_of_create h
  rw [route_child hpiece, start_child hp hpiece, creationSpot] at hspot
  obtain ⟨⟨pos, last⟩, hlast, hspot⟩ := bind_eq_ok.mp hspot
  cases last with
  | none => cases hspot
  | some last =>
    obtain ⟨above, heq, -, -, -, hfollow, hdir⟩ := resolveLast_some hlast
    obtain ⟨rfl, hlast⟩ := List.append_inj' heq rfl
    obtain rfl : n = last := by simpa using hlast
    refine ⟨pos, ?_, hdir, ?_⟩
    · unfold resolve
      rw [checkPath_of_child hp hpiece hcheck, Path.route, hslash]
      exact hfollow
    · simp only at hspot
      split at hspot
      · cases hspot
      · rename_i target hlink
        exact Or.inr ⟨target, hlink⟩
      · cases hspot
        exact Or.inl rfl

/-- What a path goes on from is a directory. -/
theorem stat_of_resolve_child (hp : p.bytes ≠ []) (hslash : p.endsWithSlash = false)
    (hn : n.IsPiece) (h : t.resolve cwd (p.child n) = .ok pos) : t.stat cwd p = .ok .dir := by
  obtain ⟨hcheck, hfollow⟩ := resolve_ok h
  rw [route_child hn, start_child hp hn] at hfollow
  obtain ⟨mid, hmid, hend⟩ := follow_append_ok hfollow
  have hresolve : t.resolve cwd p = .ok mid := by
    unfold resolve
    rw [checkPath_of_child hp hn hcheck, Path.route, hslash]
    exact hmid
  exact stat_eq_ok.mpr ⟨mid, hresolve, dir_of_follow_cons hend⟩

/-- A directory that is there already is kept. -/
theorem makeDirAll_of_isDir (hn : n.IsEntry) (h : t.stat cwd (p.child n) = .ok .dir) :
    (makeDirAll cwd (p.child n)).exec t = (.ok ⟨⟩, t) := by
  have hpiece := hn.toIsPiece
  obtain ⟨pos, hresolve, -⟩ := stat_eq_ok.mp h
  obtain ⟨hcheck, hfollow⟩ := resolve_ok hresolve
  rw [route_child hpiece] at hfollow
  obtain ⟨mid, hmid, hend⟩ := follow_append_ok hfollow
  have hdir := dir_of_follow_cons hend
  rw [follow_cons hdir, if_neg hn.ne_here, if_neg hn.ne_up] at hend
  split_ifs at hend with hsize
  have hsome : (t.get? (mid.loc ++ [n])).isSome := by
    cases hget : t.get? (mid.loc ++ [n]) with
    | none =>
      rw [hget] at hend
      cases hend
    | some _ => rfl
  have hlast : t.resolveLast maxLinks ((p.child n).start cwd) (p.pieces ++ [n]) =
      .ok (mid, some n) := by
    unfold resolveLast
    rw [List.getLast?_concat]
    simp only [hn.ne_here, hn.ne_up, or_self, if_false, List.dropLast_concat, hmid]
    show (if t.get? mid.loc ≠ some .dir then _ else _) = _
    rw [if_neg (by simp [hdir]), if_neg hsize]
    rfl
  have hmake : makeDir cwd (p.child n) t = .error .alreadyExists := by
    unfold makeDir
    rw [hcheck, Path.pieces_child hpiece]
    show ((t.resolveLast maxLinks ((p.child n).start cwd) (p.pieces ++ [n])).bind _) = _
    rw [hlast]
    exact if_pos hsome
  have hthere : t.isDir cwd (p.child n) = true := by
    unfold isDir
    rw [h]
  unfold makeDirAll
  rw [makeDirAllAux, if_neg (by simpa using Path.bytes_child_ne hpiece),
    Edit.exec_bind_of_ok Edit.exec_get, hmake]
  simp only [hthere, if_true]
  rfl

end Zipship.Tree
