import Zipship.Proofs.Tree.View

/-!
# Where paths lead

Three facts about look-ups carry everything that is done by path. Real entries are followed as they
stand (`follow_real`), so a path that spells a location leads there (`resolve_spelled`,
`locate_spelled`). Looking up what is below a directory is going on from that directory
(`resolve_descend`). And what names lead to is unique (`Leads.unique`), with a directory above it
(`Leads.parent`).

`Leads` says where names lead from a source directory when every link on the way is followed.
-/

namespace Zipship

variable {t : Tree} {cwd cur dir l loc : Loc} {n : Name} {names rest : List Name} {node : Node}
  {links : Nat} {p source : Path} {start pos : Tree.Position}

/-- What succeeds did so step by step. -/
theorem bind_eq_ok {ε α β : Type} {x : Except ε α} {f : α → Except ε β} {b : β} :
    x >>= f = .ok b ↔ ∃ a, x = .ok a ∧ f a = .ok b := by
  constructor
  · intro h
    cases x with
    | error e => cases h
    | ok a => exact ⟨a, rfl, h⟩
  · rintro ⟨a, rfl, h⟩
    exact h

theorem map_eq_ok {ε α β : Type} {x : Except ε α} {f : α → β} {b : β} (h : x.map f = .ok b) :
    ∃ a, x = .ok a ∧ f a = b := by
  cases x with
  | error e => cases h
  | ok a =>
    cases h
    exact ⟨a, rfl, rfl⟩

theorem mapError_eq_ok {ε δ α : Type} {x : Except ε α} {f : ε → δ} {a : α}
    (h : x.mapError f = .ok a) : x = .ok a := by
  cases x with
  | error e => cases h
  | ok b =>
    cases h
    rfl

theorem mapError_eq_error {ε δ α : Type} {x : Except ε α} {f : ε → δ} {d : δ}
    (h : x.mapError f = .error d) : ∃ e, x = .error e ∧ f e = d := by
  cases x with
  | error e =>
    cases h
    exact ⟨e, rfl, rfl⟩
  | ok _ => cases h

namespace Tree

/-! ## Following pieces -/

/-- What a look-up does at a link: it goes on where the link leads, if it may follow one more. -/
def through (t : Tree) : Nat → Loc → Path → List Name → Except OsError Position
  | 0, _, _, _ => .error .tooManyLinks
  | links + 1, dir, target, rest => t.follow links (target.start dir) (target.route ++ rest)

theorem follow_eq_travel (t : Tree) (links : Nat) :
    t.follow links = travel t links (t.through links) := by
  cases links <;> rfl

theorem impasse_of_get? (h : t.get? l = some node) : t.impasse l = .notDirectory :=
  if_pos (by simp [h])

@[simp] theorem follow_nil : t.follow links cur [] = .ok ⟨cur, links⟩ := by
  cases links <;> rfl

/-- One step of a look-up. -/
theorem follow_cons (hdir : t.get? cur = some .dir) :
    t.follow links cur (n :: rest) =
      if n = Name.here then t.follow links cur rest
      else if n = Name.up then t.follow links cur.dropLast rest
      else if maxNameBytes < n.length then .error .nameTooLong
      else match t.get? (cur ++ [n]) with
        | none => .error .notFound
        | some (.link target) => t.through links cur target rest
        | some _ => t.follow links (cur ++ [n]) rest := by
  rw [follow_eq_travel, travel]
  exact if_neg (by simp [hdir])

/-- One step of a look-up to an entry of a directory. -/
theorem follow_entry (hdir : t.get? cur = some .dir) (hn : n.valid = true) :
    t.follow links cur (n :: rest) = match t.get? (cur ++ [n]) with
      | none => .error .notFound
      | some (.link target) => t.through links cur target rest
      | some _ => t.follow links (cur ++ [n]) rest := by
  have he := Name.isEntry_of_valid hn
  rw [follow_cons hdir, if_neg he.ne_here, if_neg he.ne_up,
    if_neg (Nat.not_lt.mpr (Name.length_le_of_valid hn))]

/-- A look-up goes nowhere from what is not a directory. -/
theorem dir_of_follow_cons (h : t.follow links cur (n :: rest) = .ok pos) :
    t.get? cur = some .dir := by
  rw [follow_eq_travel, travel] at h
  by_contra hne
  rw [if_pos hne] at h
  cases h

/-- Among real directories, pieces that stay where they are do not matter. -/
theorem follow_real_dirs (h : t.get? (cur ++ names.filter (· ≠ Name.here)) = some .dir) :
    t.follow links cur names = .ok ⟨cur ++ names.filter (· ≠ Name.here), links⟩ := by
  induction names generalizing cur with
  | nil => simp
  | cons piece rest ih =>
    have hcur : t.get? cur = some .dir := by
      by_cases hnil : (piece :: rest).filter (· ≠ Name.here) = []
      · rwa [hnil, List.append_nil] at h
      · exact get?_eq_dir_of_append h hnil
    by_cases hhere : piece = Name.here
    · rw [List.filter_cons_of_neg (by simp [hhere])] at h ⊢
      rw [follow_cons hcur, if_pos hhere]
      exact ih h
    · rw [List.filter_cons_of_pos (by simp [hhere]),
        List.append_cons cur piece (rest.filter (· ≠ Name.here))] at h ⊢
      have hdir : t.get? (cur ++ [piece]) = some .dir := by
        by_cases hnil : rest.filter (· ≠ Name.here) = []
        · rwa [hnil, List.append_nil] at h
        · exact get?_eq_dir_of_append h hnil
      rw [follow_entry hcur (parent_of_get? hdir).2, hdir]
      exact ih h

/-- On a way without links, names lead straight down. -/
theorem loc_of_follow_straight (hf : t.follow links cur names = .ok pos)
    (hnames : ∀ n ∈ names, n.IsEntry)
    (hlinks : ∀ q, q <+: names → ∀ target, t.get? (cur ++ q) ≠ some (.link target)) :
    pos.loc = cur ++ names := by
  induction names generalizing cur with
  | nil =>
    rw [follow_nil] at hf
    cases hf
    simp
  | cons n rest ih =>
    have hn := hnames n List.mem_cons_self
    have hbelow : ∀ q, q <+: rest → ∀ target, t.get? (cur ++ [n] ++ q) ≠ some (.link target) := by
      intro q hq
      rw [List.append_assoc]
      exact hlinks (n :: q) (List.cons_prefix_cons.mpr ⟨rfl, hq⟩)
    rw [follow_cons (dir_of_follow_cons hf), if_neg hn.ne_here, if_neg hn.ne_up] at hf
    split_ifs at hf
    cases hget : t.get? (cur ++ [n]) with
    | none =>
      rw [hget] at hf
      cases hf
    | some node =>
      rw [hget] at hf
      cases node with
      | link target => exact absurd hget (hlinks [n] ⟨rest, rfl⟩ target)
      | dir | file _ _ | device _ =>
        rw [ih hf (fun m hm => hnames m (List.mem_cons_of_mem _ hm)) hbelow, List.append_assoc]
        rfl

/-- Where there are no links at all, names lead straight down. -/
theorem loc_of_follow_unlinked (hf : t.follow links cur names = .ok pos)
    (hnames : ∀ n ∈ names, n.valid = true)
    (hlinks : ∀ below target, t.get? (cur ++ below) ≠ some (.link target)) :
    pos.loc = cur ++ names :=
  loc_of_follow_straight hf (fun n hn => Name.isEntry_of_valid (hnames n hn)) fun q _ => hlinks q

/-- Staying in a directory changes nothing. -/
theorem follow_here (h : t.follow links cur [Name.here] = .ok pos) : pos = ⟨cur, links⟩ := by
  have hdir := dir_of_follow_cons h
  rw [follow_eq_travel, travel, if_neg (by simp [hdir]), if_pos rfl, travel] at h
  exact (Except.ok.inj h).symm

/-- Real entries are followed as they stand. -/
theorem follow_real (h : t.get? (cur ++ names) = some node)
    (hlink : ∀ target, node ≠ .link target) :
    t.follow links cur names = .ok ⟨cur ++ names, links⟩ := by
  induction names generalizing cur with
  | nil => simp
  | cons n rest ih =>
    have hdir : t.get? cur = some .dir := get?_eq_dir_of_append h (List.cons_ne_nil _ _)
    have hn : n.valid = true := valid_of_get? h n (by simp)
    have hstep : cur ++ n :: rest = (cur ++ [n]) ++ rest := by simp
    rw [hstep] at h ⊢
    rw [follow_entry hdir hn]
    by_cases hrest : rest = []
    · subst hrest
      rw [List.append_nil] at h
      rw [h]
      cases node with
      | link target => exact absurd rfl (hlink target)
      | dir | file _ _ | device _ => simp
    · rw [get?_eq_dir_of_append h hrest]
      exact ih h

/-- Going along a location from the root ends there. -/
theorem follow_root (h : t.get? l = some node) (hlink : ∀ target, node ≠ .link target) :
    t.follow links [] l = .ok ⟨l, links⟩ := by
  have hroot : t.get? ([] ++ l) = some node := h
  rw [follow_real hroot hlink]
  rfl

/-- The two parts of a route that was followed to its end. -/
theorem follow_append_ok {a b : List Name} (h : t.follow links cur (a ++ b) = .ok pos) :
    ∃ mid, t.follow links cur a = .ok mid ∧ t.follow mid.links mid.loc b = .ok pos := by
  rw [follow_append] at h
  exact bind_eq_ok.mp h

/-- The route of a path goes along its pieces. -/
theorem follow_pieces_of_route (h : t.follow links cur p.route = .ok pos) :
    t.follow links cur p.pieces = .ok pos := by
  unfold Path.route at h
  split_ifs at h
  · obtain ⟨mid, hmid, hend⟩ := follow_append_ok h
    rw [hmid, follow_here hend]
  · exact h

/-! ## Looking up paths -/

/-- What a look-up that succeeds has in common with every other. -/
theorem resolve_ok (h : t.resolve cwd p = .ok pos) :
    checkPath p = .ok ⟨⟩ ∧ t.follow maxLinks (p.start cwd) p.route = .ok pos := by
  unfold resolve at h
  obtain ⟨⟨⟩, hcheck, hfollow⟩ := bind_eq_ok.mp h
  exact ⟨hcheck, hfollow⟩

theorem bytes_ne_of_checkPath (h : checkPath p = .ok ⟨⟩) : p.bytes ≠ [] := by
  intro hp
  simp [checkPath, hp, Path.hasNul] at h

/-- A look-up ends at something that is not a link, if it starts at such a thing. -/
theorem get?_of_follow (hf : t.follow links cur names = .ok pos)
    (hcur : ∃ node, t.get? cur = some node ∧ ∀ target, node ≠ .link target) :
    ∃ node, t.get? pos.loc = some node ∧ ∀ target, node ≠ .link target := by
  induction links using Nat.strong_induction_on generalizing cur names with
  | _ links hjump =>
    induction names generalizing cur with
    | nil =>
      rw [follow_nil] at hf
      cases hf
      exact hcur
    | cons piece rest ih =>
      have hdir := dir_of_follow_cons hf
      rw [follow_cons hdir] at hf
      split_ifs at hf
      · exact ih hf hcur
      · refine ih hf ⟨.dir, ?_, by simp⟩
        by_cases hroot : cur = []
        · simp [hroot]
        · rw [← List.dropLast_concat_getLast hroot] at hdir
          exact (parent_of_get? hdir).1
      · cases hget : t.get? (cur ++ [piece]) with
        | none =>
          rw [hget] at hf
          cases hf
        | some node =>
          rw [hget] at hf
          cases node with
          | dir | file _ _ | device _ => exact ih hf ⟨_, hget, by simp⟩
          | link target =>
            cases links with
            | zero => cases hf
            | succ links =>
              refine hjump links (Nat.lt_succ_self _) hf ⟨.dir, ?_, by simp⟩
              unfold Path.start
              split_ifs
              · exact get?_nil t
              · exact hdir

/-- What a path leads to is there, and is not a link. -/
theorem get?_of_resolve (h : t.resolve cwd p = .ok pos) :
    ∃ node, t.get? pos.loc = some node ∧ ∀ target, node ≠ .link target := by
  obtain ⟨hcheck, hf⟩ := resolve_ok h
  refine get?_of_follow hf ⟨.dir, ?_, by simp⟩
  cases hroute : p.route with
  | cons piece rest =>
    rw [hroute] at hf
    exact dir_of_follow_cons hf
  | nil =>
    have hpieces : p.pieces = [] := by
      unfold Path.route at hroute
      split_ifs at hroute
      · simp at hroute
      · exact hroute
    have habs := Path.isAbsolute_of_pieces_eq_nil (bytes_ne_of_checkPath hcheck) hpieces
    simp [Path.start, habs]

/-- What a path leads to is what is where it leads. -/
theorem stat_eq_ok :
    t.stat cwd p = .ok node ↔ ∃ pos, t.resolve cwd p = .ok pos ∧ t.get? pos.loc = some node := by
  unfold stat
  rw [bind_eq_ok]
  refine exists_congr fun pos => and_congr_right fun _ => ?_
  cases t.get? pos.loc with
  | none => exact iff_of_false (by simp) (by simp)
  | some found => simp [pure, Except.pure]

/-- The path leads to a regular file, links followed. -/
def LeadsToFile (t : Tree) (cwd : Loc) (p : Path) : Prop :=
  ∃ pos content mode, t.resolve cwd p = .ok pos ∧ t.get? pos.loc = some (.file content mode)

theorem isFile_iff : t.isFile cwd p = true ↔ t.LeadsToFile cwd p := by
  unfold isFile
  constructor
  · intro h
    split at h
    · rename_i content mode hstat
      obtain ⟨pos, hresolve, hget⟩ := stat_eq_ok.mp hstat
      exact ⟨pos, content, mode, hresolve, hget⟩
    · cases h
  · rintro ⟨pos, content, mode, hresolve, hget⟩
    rw [stat_eq_ok.mpr ⟨pos, hresolve, hget⟩]

/-- A path that is no text for the operating system is refused, but not as missing. -/
theorem checkPath_cases (hp : p.bytes ≠ []) :
    checkPath p = .ok ⟨⟩ ∨ ∃ e, checkPath p = .error e ∧ e ≠ .notFound := by
  unfold checkPath
  split_ifs with h1 h2 h3
  · exact Or.inr ⟨_, rfl, by decide⟩
  · exact absurd (by simpa using h2) hp
  · exact Or.inr ⟨_, rfl, by decide⟩
  · exact Or.inl rfl

theorem locate_refused {e : OsError} (h : checkPath p = .error e) :
    t.locate cwd p = .error e := by
  unfold locate
  rw [h]
  rfl

/-- Looking up what is below a directory is going on from that directory. -/
theorem resolve_descend (hs : t.resolve cwd source = .ok start) (hne : names ≠ [])
    (hn : ∀ n ∈ names, n.IsPiece) :
    t.resolve cwd (source.descend names) =
      (checkPath (source.descend names)).bind fun _ => t.follow start.links start.loc names := by
  obtain ⟨hcheck, hfollow⟩ := resolve_ok hs
  have hbytes := bytes_ne_of_checkPath hcheck
  have hstart : (source.descend names).start cwd = source.start cwd := by
    simp only [Path.start, Path.isAbsolute_descend hbytes hn]
  have hroute : (source.descend names).route = source.pieces ++ names := by
    obtain ⟨above, m, rfl⟩ : ∃ above m, names = above ++ [m] :=
      ⟨_, _, (List.dropLast_concat_getLast hne).symm⟩
    have hopen : (source.descend (above ++ [m])).endsWithSlash = false := by
      rw [Path.descend_snoc]
      exact Path.endsWithSlash_child (hn m (by simp))
    rw [Path.route, hopen, Bool.false_and, if_neg Bool.false_ne_true, Path.pieces_descend hn]
  unfold resolve
  rw [hstart, hroute, follow_append, follow_pieces_of_route hfollow]
  rfl

/-- A path to a directory goes on to what is there under a name, if that is no link. -/
theorem resolve_child (hc : checkPath (p.child n) = .ok ⟨⟩) (hn : n.IsPiece)
    (hp : t.resolve cwd p = .ok pos) (hget : t.get? (pos.loc ++ [n]) = some node)
    (hlink : ∀ target, node ≠ .link target) :
    t.resolve cwd (p.child n) = .ok ⟨pos.loc ++ [n], pos.links⟩ := by
  show t.resolve cwd (p.descend [n]) = _
  rw [resolve_descend hp (List.cons_ne_nil n []) (by simpa using hn),
    show p.descend [n] = p.child n from rfl, hc]
  exact follow_real hget hlink

/-- What is looked up in a directory is its entry of the name, if that is no link. -/
theorem loc_of_resolve_child {stop : Position} (hn : n.IsEntry) (hdir : t.resolve cwd p = .ok pos)
    (hlink : ∀ target, t.get? (pos.loc ++ [n]) ≠ some (.link target))
    (h : t.resolve cwd (p.child n) = .ok stop) : stop.loc = pos.loc ++ [n] := by
  have hentry : ∀ m ∈ [n], m.IsEntry := fun m hm => List.mem_singleton.mp hm ▸ hn
  have hgo := resolve_descend hdir (List.cons_ne_nil n []) fun m hm => (hentry m hm).toIsPiece
  rw [show p.descend [n] = p.child n from rfl, h] at hgo
  obtain ⟨-, -, hfollow⟩ := bind_eq_ok.mp hgo.symm
  refine loc_of_follow_straight hfollow hentry fun q hq => ?_
  rcases List.prefix_cons_iff.mp hq with rfl | ⟨rest, rfl, hrest⟩
  · simp [dir_of_follow_cons hfollow]
  · obtain rfl := List.prefix_nil.mp hrest
    exact hlink

/-- A path that spells a location is looked up from the root. -/
theorem resolve_spells (hp : p.Spells l) (hc : checkPath p = .ok ⟨⟩) :
    t.resolve cwd p = t.follow maxLinks [] l := by
  unfold resolve
  rw [hc, hp.start, hp.route]
  rfl

/-- A path that spells a location leads there, unless a link is there. -/
theorem resolve_spelled (hp : p.Spells l) (hc : checkPath p = .ok ⟨⟩) (h : t.get? l = some node)
    (hlink : ∀ target, node ≠ .link target) : t.resolve cwd p = .ok ⟨l, maxLinks⟩ := by
  rw [resolve_spells hp hc, follow_root h hlink]

/-- A path whose components are those of a real directory leads there. -/
theorem resolve_components (hp : p.components = .root :: l.map .name) (hc : checkPath p = .ok ⟨⟩)
    (hdir : t.get? l = some .dir) : t.resolve cwd p = .ok ⟨l, maxLinks⟩ := by
  obtain ⟨habs, hpieces⟩ := Path.pieces_of_components hp
  have hroute : p.route.filter (· ≠ Name.here) = l := by
    rw [← hpieces]
    unfold Path.route
    split_ifs <;> simp
  have hstart : p.start cwd = [] := by simp [Path.start, habs]
  have hreal : t.get? ([] ++ p.route.filter (· ≠ Name.here)) = some .dir := by rwa [hroute]
  unfold resolve
  rw [hc, hstart]
  show t.follow maxLinks [] p.route = _
  rw [follow_real_dirs hreal, hroute]
  rfl

theorem loc_of_resolve_components (hp : p.components = .root :: l.map .name)
    (hdir : t.get? l = some .dir) (hr : t.resolve cwd p = .ok pos) : pos.loc = l := by
  rw [resolve_components hp (resolve_ok hr).1 hdir] at hr
  cases hr
  rfl

/-- Of a spelled place in a real directory, what a look-up takes as the last piece. -/
theorem resolveLast_real (hdir : t.get? l = some .dir) (hn : n.IsEntry) :
    t.resolveLast links [] (l ++ [n]) =
      if maxNameBytes < n.length then .error .nameTooLong else .ok (⟨l, links⟩, some n) := by
  have hfollow : t.follow links [] l = .ok ⟨l, links⟩ := follow_root hdir (by simp)
  unfold resolveLast
  rw [List.getLast?_concat]
  simp only [hn.ne_here, hn.ne_up, or_self, if_false, List.dropLast_concat, hfollow]
  show (if t.get? l ≠ some .dir then _ else _) = _
  rw [if_neg (by simp [hdir])]
  rfl

/-- Of a spelled place in a real directory, a look-up that leaves links alone finds what is there.
-/
theorem locate_spelled (hp : p.Spells (l ++ [n])) (hc : checkPath p = .ok ⟨⟩)
    (hdir : t.get? l = some .dir) (hn : n.valid = true) :
    t.locate cwd p =
      if (t.get? (l ++ [n])).isSome then .ok (l ++ [n]) else .error .notFound := by
  unfold locate
  rw [hc, hp.start, hp.route]
  show (t.resolveLast maxLinks [] (l ++ [n])).bind _ = _
  rw [resolveLast_real hdir (Name.isEntry_of_valid hn),
    if_neg (Nat.not_lt.mpr (Name.length_le_of_valid hn))]
  rfl

/-! ## Where names lead from a source -/

/-- From where `source` leads, `names` lead to `loc`, where `node` stands; every link on the way is
followed. -/
def Leads (t : Tree) (cwd : Loc) (source : Path) (names : List Name) (loc : Loc) (node : Node) :
    Prop :=
  ∃ start stop : Position, t.resolve cwd source = .ok start ∧
    t.follow start.links start.loc names = .ok stop ∧ stop.loc = loc ∧ t.get? loc = some node

namespace Leads

variable {loc' : Loc} {node' : Node}

theorem get?_eq (h : t.Leads cwd source names loc node) : t.get? loc = some node := by
  obtain ⟨-, -, -, -, -, hget⟩ := h
  exact hget

/-- What names lead to is not a link. -/
theorem not_link (h : t.Leads cwd source names loc node) (target : Path) :
    node ≠ .link target := by
  obtain ⟨start, stop, hs, hf, rfl, hget⟩ := h
  obtain ⟨found, hfound, hreal⟩ := get?_of_follow hf (get?_of_resolve hs)
  rw [Option.some.inj (hget.symm.trans hfound)]
  exact hreal target

theorem unique (h : t.Leads cwd source names loc node) (h' : t.Leads cwd source names loc' node') :
    loc = loc' ∧ node = node' := by
  obtain ⟨start, stop, hs, hf, rfl, hnode⟩ := h
  obtain ⟨start', stop', hs', hf', rfl, hnode'⟩ := h'
  rw [hs] at hs'
  cases hs'
  rw [hf] at hf'
  cases hf'
  rw [hnode] at hnode'
  cases hnode'
  exact ⟨rfl, rfl⟩

/-- What lies above something that names lead to is a directory, and it has an entry of the name.
-/
theorem parent (h : t.Leads cwd source (names ++ [n]) loc node) (hn : n.valid = true) :
    ∃ dir, t.Leads cwd source names dir .dir ∧ (t.get? (dir ++ [n])).isSome := by
  obtain ⟨start, stop, hs, hf, rfl, -⟩ := h
  obtain ⟨mid, hmid, hend⟩ := follow_append_ok hf
  have hdir := dir_of_follow_cons hend
  refine ⟨mid.loc, ⟨start, mid, hs, hmid, rfl, hdir⟩, ?_⟩
  rw [follow_entry hdir hn] at hend
  cases hget : t.get? (mid.loc ++ [n]) with
  | none =>
    rw [hget] at hend
    cases hend
  | some _ => rfl

/-- A real entry of a directory is what its name leads to. -/
theorem real (h : t.Leads cwd source names dir .dir) (hget : t.get? (dir ++ [n]) = some node)
    (hlink : ∀ target, node ≠ .link target) :
    t.Leads cwd source (names ++ [n]) (dir ++ [n]) node := by
  obtain ⟨start, stop, hs, hf, rfl, hdir⟩ := h
  refine ⟨start, ⟨stop.loc ++ [n], stop.links⟩, hs, ?_, rfl, hget⟩
  rw [follow_append, hf]
  exact follow_real hget hlink

/-- What a path below the source leads to is what the names lead to. -/
theorem of_resolve (h : t.Leads cwd source [] dir .dir) (hne : names ≠ [])
    (hn : ∀ n ∈ names, n.IsPiece) (hr : t.resolve cwd (source.descend names) = .ok pos)
    (hget : t.get? pos.loc = some node) : t.Leads cwd source names pos.loc node := by
  obtain ⟨start, -, hs, -, -, -⟩ := h
  rw [resolve_descend hs hne hn] at hr
  cases hc : checkPath (source.descend names) with
  | error e =>
    rw [hc] at hr
    cases hr
  | ok _ =>
    rw [hc] at hr
    exact ⟨start, pos, hs, hr, rfl, hget⟩

/-- If names lead somewhere, so does every beginning of them. -/
theorem of_isPrefix {q : List Name} (h : t.Leads cwd source names loc node) (hq : q <+: names)
    (hn : ∀ n ∈ names, n.valid = true) : ∃ l m, t.Leads cwd source q l m := by
  induction names using List.reverseRecOn generalizing loc node with
  | nil =>
    rw [List.prefix_nil.mp hq]
    exact ⟨_, _, h⟩
  | append_singleton names n ih =>
    rcases List.prefix_concat_iff.mp hq with rfl | hq
    · exact ⟨_, _, h⟩
    · obtain ⟨dir, hdir, -⟩ := h.parent (hn n (by simp))
      exact ih hdir hq fun m hm => hn m (by simp [hm])

/-- A proper beginning of names that lead somewhere leads to a directory. -/
theorem dir_of_isPrefix {q : List Name} (h : t.Leads cwd source names loc node) (hq : q <+: names)
    (hne : q ≠ names) (hn : ∀ n ∈ names, n.valid = true) : ∃ l, t.Leads cwd source q l .dir := by
  obtain ⟨rest, rfl⟩ := hq
  have hrest : rest ≠ [] := fun hnil => hne (by simp [hnil])
  obtain ⟨n, rest, rfl⟩ := List.exists_cons_of_ne_nil hrest
  obtain ⟨l, m, hnext⟩ := h.of_isPrefix (q := q ++ [n]) ⟨rest, by simp⟩ hn
  obtain ⟨dir, hdir, -⟩ := hnext.parent (hn n (by simp))
  exact ⟨dir, hdir⟩

end Leads

end Tree

end Zipship
