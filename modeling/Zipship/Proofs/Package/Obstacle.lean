import Zipship.Proofs.Package.Walk

/-!
# Links that a walk does not get past

An `Obstacle` is a link that leads nowhere, or back to a directory that the names in front of it go
through. A walk cannot follow one (`Obstacle.look_error`), and what it cannot follow is one
(`Within.obstacle_of_look`). It follows a link before it asks whether to leave it out, so the name
of the link does not matter. `Outcome` says all that can come of an entry.
-/

namespace Zipship.Package.Walk

variable {t : Tree} {cwd dir loc : Loc} {source : Path} {skip : List Name → Node → Bool}
  {fuel : Nat} {above : Ancestors} {names q : List Name} {name : Name} {node : Node}
  {fault : Fault}

/-- Nothing that the names go through is left out. -/
def Open (t : Tree) (cwd : Loc) (source : Path) (skip : List Name → Node → Bool)
    (names : List Name) : Prop :=
  ∀ q l m, q ≠ [] → q <+: names → t.Leads cwd source q l m → skip q m = false

/-- A link that no walk gets past. The names lead to the directory that it is in. -/
structure Obstacle (t : Tree) (cwd : Loc) (source : Path) (skip : List Name → Node → Bool)
    (names : List Name) (name : Name) : Prop where
  valid : ∀ n ∈ names, n.valid = true
  /-- Neither the directory nor one on the way to it is left out. -/
  isOpen : Open t cwd source skip names
  isLink : ∃ dir target, t.Leads cwd source names dir .dir ∧
    t.get? (dir ++ [name]) = some (.link target)
  /-- The link cannot be followed, or it leads to a directory that the names go through. -/
  blocked : (∀ pos, t.resolve cwd (source.descend (names ++ [name])) ≠ .ok pos) ∨
    ∃ pos q, t.resolve cwd (source.descend (names ++ [name])) = .ok pos ∧ q <+: names ∧
      t.Leads cwd source q pos.loc .dir

/-! ## What can come of an entry -/

theorem followedBy_of_fault {a b : Walk} (h : a.fault = some fault) :
    a.followedBy b = ⟨a.visits, some fault⟩ := by
  unfold followedBy
  simp only [h]
  rw [← h]

/-- What can come of the walk of an entry, when `inner` are the walks of the directories that it may
lead to. -/
inductive Outcome (t : Tree) (cwd : Loc) (source : Path) (skip : List Name → Node → Bool)
    (above : Ancestors) (names : List Name) (dir : Loc) (name : Name) (inner : Loc → Walk) :
    Walk → Prop
  /-- It cannot be followed. -/
  | blocked {fault : Fault}
      (hlook : look t cwd source above dir (names ++ [name]) name = .error fault) :
      Outcome t cwd source skip above names dir name inner ⟨[], some fault⟩
  /-- It is left out. -/
  | left {loc : Loc} {node : Node}
      (hlook : look t cwd source above dir (names ++ [name]) name = .ok (loc, node))
      (hskip : skip (names ++ [name]) node = true) :
      Outcome t cwd source skip above names dir name inner empty
  /-- It cannot be opened under its path. -/
  | refused {loc : Loc} {node : Node} {fault : Fault}
      (hlook : look t cwd source above dir (names ++ [name]) name = .ok (loc, node))
      (hskip : skip (names ++ [name]) node = false)
      (hfault : (visit source (names ++ [name]) loc node).fault = some fault) :
      Outcome t cwd source skip above names dir name inner
        ⟨(visit source (names ++ [name]) loc node).visits, some fault⟩
  | file {loc : Loc} {node : Node}
      (hlook : look t cwd source above dir (names ++ [name]) name = .ok (loc, node))
      (hskip : skip (names ++ [name]) node = false)
      (hcheck : Tree.checkPath (source.descend (names ++ [name])) = .ok ⟨⟩) (hnode : node ≠ .dir) :
      Outcome t cwd source skip above names dir name inner ⟨[⟨names ++ [name], loc, node⟩], none⟩
  | dir {loc : Loc}
      (hlook : look t cwd source above dir (names ++ [name]) name = .ok (loc, .dir))
      (hskip : skip (names ++ [name]) .dir = false)
      (hcheck : Tree.checkPath (source.descend (names ++ [name])) = .ok ⟨⟩) :
      Outcome t cwd source skip above names dir name inner
        ⟨⟨names ++ [name], loc, .dir⟩ :: (inner loc).visits, (inner loc).fault⟩

/-- An entry that ends a walk could not be opened. It is listed nevertheless. -/
theorem visit_fault (h : (visit source names loc node).fault = some fault) :
    Tree.checkPath (source.descend names) ≠ .ok ⟨⟩ ∧ fault.names = names ∧
      (node = .dir ∨ ∃ e, fault = .unopened names e) ∧
      ∃ shown, (visit source names loc node).visits = [⟨names, loc, shown⟩] ∧
        (node = .dir → shown = .dir) := by
  unfold visit at h ⊢
  cases hcheck : Tree.checkPath (source.descend names) with
  | ok _ =>
    rw [hcheck] at h
    cases h
  | error e =>
    rw [hcheck] at h
    cases node with
    | dir =>
      cases h
      exact ⟨by simp, rfl, Or.inl rfl, _, rfl, fun _ => rfl⟩
    | file _ _ | link _ | device _ =>
      cases h
      exact ⟨by simp, rfl, Or.inr ⟨e, rfl⟩, _, rfl, by simp⟩

theorem walkAt_outcome (t : Tree) (cwd : Loc) (source : Path) (skip : List Name → Node → Bool)
    (fuel : Nat) (above : Ancestors) (names : List Name) (dir : Loc) (name : Name) :
    Outcome t cwd source skip above names dir name
      (ofDir t cwd source skip fuel above (names ++ [name]))
      (walkAt t cwd source skip fuel above names dir name) := by
  unfold walkAt
  cases hlook : look t cwd source above dir (names ++ [name]) name with
  | error fault => exact .blocked hlook
  | ok found =>
    obtain ⟨loc, node⟩ := found
    by_cases hskip : skip (names ++ [name]) node = true
    · simp only [if_pos hskip]
      exact .left hlook hskip
    · simp only [if_neg hskip]
      rw [Bool.not_eq_true] at hskip
      cases hcheck : Tree.checkPath (source.descend (names ++ [name])) with
      | ok _ =>
        have hvisit : visit source (names ++ [name]) loc node =
            ⟨[⟨names ++ [name], loc, node⟩], none⟩ := by
          unfold visit
          rw [hcheck]
        rw [hvisit]
        by_cases hdir : node = .dir
        · subst hdir
          exact .dir hlook hskip hcheck
        · rw [if_neg hdir]
          exact .file hlook hskip hcheck hdir
      | error e =>
        have hfault : ∃ fault, (visit source (names ++ [name]) loc node).fault = some fault := by
          unfold visit
          rw [hcheck]
          cases node <;> exact ⟨_, rfl⟩
        obtain ⟨fault, hfault⟩ := hfault
        rw [followedBy_of_fault hfault]
        exact .refused hlook hskip hfault

/-- An entry of a directory that cannot be followed is a link that leads nowhere, or to a directory
that the walk is in. -/
theorem look_error (hname : name ∈ t.sortedChildren dir)
    (h : look t cwd source above dir (names ++ [name]) name = .error fault) :
    fault.names = names ++ [name] ∧ (∀ names e, fault ≠ .unopened names e) ∧
      (∃ target, t.get? (dir ++ [name]) = some (.link target)) ∧
      ((∀ pos, t.resolve cwd (source.descend (names ++ [name])) ≠ .ok pos) ∨
        ∃ pos, t.resolve cwd (source.descend (names ++ [name])) = .ok pos ∧
          t.get? pos.loc = some .dir ∧ ∃ a ∈ above, a.2 = pos.loc) := by
  unfold look at h
  cases hget : t.get? (dir ++ [name]) with
  | none =>
    have hsome := Tree.mem_sortedChildren.mp hname
    rw [hget] at hsome
    cases hsome
  | some node =>
    rw [hget] at h
    cases node with
    | dir | file _ _ | device _ => cases h
    | link target =>
      simp only at h
      cases hr : t.resolve cwd (source.descend (names ++ [name])) with
      | error e =>
        rw [hr] at h
        cases h
        exact ⟨rfl, by simp, ⟨target, rfl⟩, Or.inl (by simp)⟩
      | ok pos =>
        rw [hr] at h
        obtain ⟨node, hnode, -⟩ := Tree.get?_of_resolve hr
        simp only [hnode] at h
        split at h
        · rename_i a hdir hfind
          cases h
          refine ⟨rfl, by simp, ⟨target, rfl⟩, Or.inr ⟨pos, rfl, hnode.trans hdir, a,
            List.mem_of_find?_eq_some hfind, ?_⟩⟩
          simpa using List.find?_some hfind
        · cases h
        · rename_i hnone
          cases hnone

/-! ## The directories on the way -/

/-- The directories that a walk is in are those that its names go through. -/
theorem Descent.mem_ancestors_iff (h : Descent t cwd source above names dir)
    {a : List Name × Loc} :
    a ∈ (names, dir) :: above ↔ a.1 <+: names ∧ t.Leads cwd source a.1 a.2 .dir := by
  have hself {above : Ancestors} {names : List Name} {dir : Loc}
      (h : Descent t cwd source above names dir) :
      a = (names, dir) ↔ a.1 = names ∧ t.Leads cwd source a.1 a.2 .dir := by
    constructor
    · rintro rfl
      exact ⟨rfl, h.leads⟩
    · rintro ⟨hnames, hleads⟩
      rw [hnames] at hleads
      exact Prod.ext hnames (hleads.unique h.leads).1
  induction h with
  | start h => rw [List.mem_singleton, hself (.start h), List.prefix_nil]
  | enter h hlook ih =>
    rw [List.mem_cons, hself (h.enter hlook), List.prefix_concat_iff, or_and_right]
    exact or_congr Iff.rfl ih

theorem Open.nil : Open t cwd source skip [] := fun _ _ _ hne hq =>
  absurd (List.prefix_nil.mp hq) hne

theorem Open.snoc (h : Open t cwd source skip names)
    (hleads : t.Leads cwd source (names ++ [name]) loc node)
    (hskip : skip (names ++ [name]) node = false) : Open t cwd source skip (names ++ [name]) := by
  intro q l m hne hq hl
  rcases List.prefix_concat_iff.mp hq with rfl | hq
  · rwa [(hl.unique hleads).2]
  · exact h q l m hne hq hl

/-- What is to be listed is open, and so are the directories above it. -/
theorem Due.isOpen (h : Due t cwd source skip [] names loc node) (hq : q <+: names) :
    Open t cwd source skip q := fun p l m hne hp =>
  h.free p l m List.nil_prefix hne.symm (hp.trans hq)

/-- A directory that a walk is in, when nothing on the way was left out. -/
structure Within (t : Tree) (cwd : Loc) (source : Path) (skip : List Name → Node → Bool)
    (above : Ancestors) (names : List Name) (dir : Loc) : Prop where
  descent : Descent t cwd source above names dir
  isOpen : Open t cwd source skip names

namespace Within

theorem enter (h : Within t cwd source skip above names dir)
    (hlook : look t cwd source ((names, dir) :: above) dir (names ++ [name]) name =
      .ok (loc, .dir)) (hskip : skip (names ++ [name]) .dir = false) :
    Within t cwd source skip ((names, dir) :: above) (names ++ [name]) loc where
  descent := h.descent.enter hlook
  isOpen := h.isOpen.snoc (h.descent.enter hlook).leads hskip

theorem leads_of_look (h : Within t cwd source skip above names dir)
    (hlook : look t cwd source ((names, dir) :: above) dir (names ++ [name]) name =
      .ok (loc, node)) : t.Leads cwd source (names ++ [name]) loc node := by
  obtain ⟨start, hstart⟩ := h.descent.source_isDir
  exact Walk.leads_of_look hstart h.descent.valid h.descent.leads hlook

/-- What is found and not left out is to be listed. -/
theorem due_of_look (h : Within t cwd source skip above names dir)
    (hlook : look t cwd source ((names, dir) :: above) dir (names ++ [name]) name =
      .ok (loc, node)) (hskip : skip (names ++ [name]) node = false) :
    Due t cwd source skip [] (names ++ [name]) loc node := by
  have hleads := h.leads_of_look hlook
  have hentry := due_entry h.descent.valid (look_cases hlook).1 hleads hskip
  exact ⟨List.nil_prefix, by simp, hentry.valid, hleads, fun q l m _ hne hq =>
    h.isOpen.snoc hleads hskip q l m hne.symm hq⟩

/-- A link that cannot be followed is an obstacle. -/
theorem obstacle_of_look (h : Within t cwd source skip above names dir)
    (hname : name ∈ t.sortedChildren dir)
    (hlook : look t cwd source ((names, dir) :: above) dir (names ++ [name]) name =
      .error fault) : Obstacle t cwd source skip names name where
  valid := h.descent.valid
  isOpen := h.isOpen
  isLink := by
    obtain ⟨-, -, ⟨target, hlink⟩, -⟩ := look_error hname hlook
    exact ⟨dir, target, h.descent.leads, hlink⟩
  blocked := by
    obtain ⟨-, -, -, hbroken | ⟨pos, hr, -, a, ha, hloc⟩⟩ := look_error hname hlook
    · exact Or.inl hbroken
    · obtain ⟨hfront, hleads⟩ := h.descent.mem_ancestors_iff.mp ha
      exact Or.inr ⟨pos, a.1, hr, hfront, hloc ▸ hleads⟩

end Within

/-- An obstacle cannot be followed from the directory that it is in. -/
theorem Obstacle.look_error (h : Obstacle t cwd source skip names name)
    (hdesc : Descent t cwd source above names dir) : ∃ fault,
      look t cwd source ((names, dir) :: above) dir (names ++ [name]) name = .error fault := by
  obtain ⟨l, target, hleads, hlink⟩ := h.isLink
  obtain ⟨rfl, -⟩ := hleads.unique hdesc.leads
  cases hlook : look t cwd source ((names, l) :: above) l (names ++ [name]) name with
  | error fault => exact ⟨fault, rfl⟩
  | ok found =>
    obtain ⟨loc, node⟩ := found
    obtain ⟨-, ⟨rfl, hget, hreal⟩ | ⟨pos, hr, rfl, hget, hfree⟩⟩ := look_cases hlook
    · rw [hlink] at hget
      exact absurd (Option.some.inj hget).symm (hreal target)
    · rcases h.blocked with hbroken | ⟨stop, q, hstop, hq, hback⟩
      · exact absurd hr (hbroken pos)
      · rw [hr] at hstop
        cases hstop
        have hdir := Option.some.inj (hget.symm.trans hback.get?_eq)
        exact absurd rfl (hfree hdir (q, pos.loc) (hdesc.mem_ancestors_iff.mpr ⟨hq, hback⟩))

end Zipship.Package.Walk
