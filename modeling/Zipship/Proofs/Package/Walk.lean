import Zipship.Package.Walk
import Zipship.Proofs.Tree.Lookup

/-!
# What a walk through links lists

A walk that comes to its end lists exactly the places below the source that names lead to, links
followed, unless the place or a directory above it was left out (`mem_ofSource`), in lexicographic
order of the names (`ofSource_pairwise`).

The walk is bounded by `depthBound`, and the bound is never met (`Descent.length_lt`): every
directory that a link leads to is none of those that the walk is in, so on one way down there are at
most as many links as directories, and between two of them the way only goes deeper.
-/

namespace Zipship.Package.Walk

variable {t : Tree} {cwd dir loc : Loc} {source : Path} {skip : List Name → Node → Bool}
  {fuel : Nat} {above : Ancestors} {names : List Name} {name : Name} {node : Node} {v : Visit}

/-! ## Walks one after another -/

theorem followedBy_ok {a b : Walk} (h : (a.followedBy b).fault = none) :
    a.fault = none ∧ b.fault = none ∧ (a.followedBy b).visits = a.visits ++ b.visits := by
  unfold followedBy at h ⊢
  cases ha : a.fault with
  | some fault =>
    rw [ha] at h
    exact absurd (ha.symm.trans h) (by simp)
  | none =>
    rw [ha] at h
    exact ⟨rfl, h, rfl⟩

theorem chain_ok {ws : List Walk} (h : (chain ws).fault = none) :
    (∀ w ∈ ws, w.fault = none) ∧ (chain ws).visits = ws.flatMap visits := by
  induction ws with
  | nil => exact ⟨by simp, rfl⟩
  | cons w ws ih =>
    obtain ⟨hw, hrest, hvisits⟩ := followedBy_ok h
    obtain ⟨hall, hflat⟩ := ih hrest
    refine ⟨List.forall_mem_cons.mpr ⟨hw, hall⟩, ?_⟩
    rw [List.flatMap_cons, ← hflat]
    exact hvisits

/-! ## One entry -/

/-- The walk of one entry of the directory at `dir`. -/
def walkAt (t : Tree) (cwd : Loc) (source : Path) (skip : List Name → Node → Bool) (fuel : Nat)
    (above : Ancestors) (names : List Name) (dir : Loc) (name : Name) : Walk :=
  match look t cwd source above dir (names ++ [name]) name with
  | .error fault => ⟨[], some fault⟩
  | .ok (loc, node) =>
    if skip (names ++ [name]) node then empty
    else (visit source (names ++ [name]) loc node).followedBy
      (if node = .dir then ofDir t cwd source skip fuel above (names ++ [name]) loc else empty)

theorem ofDir_succ : ofDir t cwd source skip (fuel + 1) above names dir =
    chain ((t.sortedChildren dir).map
      (walkAt t cwd source skip fuel ((names, dir) :: above) names dir)) := rfl

theorem visit_ok (h : (visit source names loc node).fault = none) :
    (visit source names loc node).visits = [⟨names, loc, node⟩] := by
  unfold visit at h ⊢
  cases hc : Tree.checkPath (source.descend names) with
  | ok _ => rfl
  | error e =>
    rw [hc] at h
    cases node <;> cases h

/-- An entry whose walk comes to its end was found, and is listed with what is below it unless it
is left out. -/
theorem walkAt_ok (h : (walkAt t cwd source skip fuel above names dir name).fault = none) :
    ∃ loc node, look t cwd source above dir (names ++ [name]) name = .ok (loc, node) ∧
      (node = .dir → skip (names ++ [name]) node = false →
        (ofDir t cwd source skip fuel above (names ++ [name]) loc).fault = none) ∧
      (walkAt t cwd source skip fuel above names dir name).visits =
        if skip (names ++ [name]) node then []
        else ⟨names ++ [name], loc, node⟩ :: if node = .dir then
          (ofDir t cwd source skip fuel above (names ++ [name]) loc).visits else [] := by
  unfold walkAt at h ⊢
  cases hlook : look t cwd source above dir (names ++ [name]) name with
  | error fault =>
    rw [hlook] at h
    cases h
  | ok found =>
    obtain ⟨loc, node⟩ := found
    rw [hlook] at h
    refine ⟨loc, node, rfl, ?_⟩
    by_cases hskip : skip (names ++ [name]) node = true
    · simp [hskip, empty]
    · simp only [if_neg hskip] at h ⊢
      obtain ⟨hvisit, hrest, hvisits⟩ := followedBy_ok h
      rw [visit_ok hvisit] at hvisits
      rw [hvisits]
      by_cases hdir : node = .dir
      · rw [if_pos hdir] at hrest
        simp [hdir, hrest]
      · simp [hdir, empty]

theorem mem_of_walkAt_ok {inner : List Visit} : v ∈ (if skip (names ++ [name]) node then []
      else (⟨names ++ [name], loc, node⟩ : Visit) :: if node = .dir then inner else []) ↔
    skip (names ++ [name]) node = false ∧
      (v = ⟨names ++ [name], loc, node⟩ ∨ node = .dir ∧ v ∈ inner) := by
  by_cases hskip : skip (names ++ [name]) node = true
  · simp [hskip]
  · rw [if_neg hskip, and_iff_right (Bool.eq_false_iff.mpr hskip), List.mem_cons]
    by_cases hdir : node = .dir
    · rw [if_pos hdir, and_iff_right hdir]
    · simp [hdir]

/-- Where an entry was found: in its directory, or where a link leads to, which is no directory that
the walk is in. -/
theorem look_cases (h : look t cwd source above dir (names ++ [name]) name = .ok (loc, node)) :
    name.valid = true ∧
      (loc = dir ++ [name] ∧ t.get? loc = some node ∧ (∀ target, node ≠ .link target) ∨
        ∃ pos, t.resolve cwd (source.descend (names ++ [name])) = .ok pos ∧ pos.loc = loc ∧
          t.get? loc = some node ∧ (node = .dir → ∀ a ∈ above, a.2 ≠ loc)) := by
  unfold look at h
  cases hget : t.get? (dir ++ [name]) with
  | none =>
    rw [hget] at h
    cases h
  | some entry =>
    refine ⟨(Tree.parent_of_get? hget).2, ?_⟩
    rw [hget] at h
    cases entry with
    | dir | file _ _ | device _ =>
      cases h
      exact Or.inl ⟨rfl, hget, by simp⟩
    | link target =>
      right
      simp only at h
      cases hr : t.resolve cwd (source.descend (names ++ [name])) with
      | error e =>
        rw [hr] at h
        cases h
      | ok pos =>
        rw [hr] at h
        simp only at h
        split at h
        · cases h
        · rename_i hnode hfree
          cases h
          refine ⟨pos, rfl, rfl, hnode, fun hdir a ha heq => ?_⟩
          obtain ⟨b, hb⟩ := Option.isSome_iff_exists.mp
            (List.find?_isSome (p := fun a : List Name × Loc => a.2 = pos.loc)
              |>.mpr ⟨a, ha, by simpa using heq⟩)
          exact hfree b hb hdir
        · cases h

/-! ## The way down -/

/-- The ways down that a walk takes: the directories it has come through, the names behind it, and
the directory that it is in. -/
inductive Descent (t : Tree) (cwd : Loc) (source : Path) :
    Ancestors → List Name → Loc → Prop
  | start {dir : Loc} (h : t.Leads cwd source [] dir .dir) : Descent t cwd source [] [] dir
  | enter {above : Ancestors} {names : List Name} {dir loc : Loc} {name : Name}
      (h : Descent t cwd source above names dir)
      (hlook : look t cwd source ((names, dir) :: above) dir (names ++ [name]) name =
        .ok (loc, .dir)) :
      Descent t cwd source ((names, dir) :: above) (names ++ [name]) loc

theorem leads_of_look {start : Loc} (hstart : t.Leads cwd source [] start .dir)
    (hnames : ∀ n ∈ names, n.valid = true) (hdir : t.Leads cwd source names dir .dir)
    (h : look t cwd source above dir (names ++ [name]) name = .ok (loc, node)) :
    t.Leads cwd source (names ++ [name]) loc node := by
  obtain ⟨hname, ⟨rfl, hget, hlink⟩ | ⟨pos, hr, rfl, hget, -⟩⟩ := look_cases h
  · exact hdir.real hget hlink
  · refine hstart.of_resolve (by simp) (fun n hn => ?_) hr hget
    refine (Name.isEntry_of_valid ?_).toIsPiece
    rcases List.mem_append.mp hn with hn | hn
    · exact hnames n hn
    · rwa [List.mem_singleton.mp hn]

namespace Descent

theorem source_isDir (h : Descent t cwd source above names dir) :
    ∃ start, t.Leads cwd source [] start .dir := by
  induction h with
  | start h => exact ⟨_, h⟩
  | enter _ _ ih => exact ih

theorem valid (h : Descent t cwd source above names dir) : ∀ n ∈ names, n.valid = true := by
  induction h with
  | start => simp
  | enter _ hlook ih =>
    intro n hn
    rcases List.mem_append.mp hn with hn | hn
    · exact ih n hn
    · rw [List.mem_singleton.mp hn]
      exact (look_cases hlook).1

theorem leads (h : Descent t cwd source above names dir) : t.Leads cwd source names dir .dir := by
  induction h with
  | start h => exact h
  | enter h hlook ih =>
    obtain ⟨start, hstart⟩ := h.source_isDir
    exact leads_of_look hstart h.valid ih hlook

theorem isDir (h : Descent t cwd source above names dir) : t.get? dir = some .dir :=
  h.leads.get?_eq

/-- What a way down owes to links: `targets` are where it started and where links led it, all
different. What it went down from there is at most the depth of a location. -/
theorem exists_targets (h : Descent t cwd source above names dir) :
    ∃ targets : List Loc, targets.Nodup ∧ (∀ l ∈ targets, t.get? l = some .dir) ∧
      (∀ l ∈ targets, l = dir ∨ ∃ a ∈ above, a.2 = l) ∧
      names.length + (t.entries.length + 1) ≤
        targets.length * (t.entries.length + 1) + dir.length := by
  induction h with
  | start h => exact ⟨[_], List.nodup_singleton _, by simpa using h.get?_eq, by simp, by simp⟩
  | @enter above names dir loc name h hlook ih =>
    obtain ⟨targets, hnodup, hdirs, hfrom, hlen⟩ := ih
    have hseen : ∀ l ∈ targets, ∃ a ∈ (names, dir) :: above, a.2 = l := by
      intro l hl
      rcases hfrom l hl with rfl | ⟨a, ha, rfl⟩
      · exact ⟨_, List.mem_cons_self, rfl⟩
      · exact ⟨a, List.mem_cons_of_mem _ ha, rfl⟩
    rw [List.length_append, List.length_singleton]
    obtain ⟨-, ⟨rfl, -, -⟩ | ⟨pos, -, rfl, hget, hfree⟩⟩ := look_cases hlook
    · refine ⟨targets, hnodup, hdirs, fun l hl => Or.inr (hseen l hl), ?_⟩
      rw [List.length_append, List.length_singleton]
      omega
    · refine ⟨pos.loc :: targets, List.nodup_cons.mpr ⟨fun hmem => ?_, hnodup⟩,
        List.forall_mem_cons.mpr ⟨hget, hdirs⟩, List.forall_mem_cons.mpr
          ⟨Or.inl rfl, fun l hl => Or.inr (hseen l hl)⟩, ?_⟩
      · obtain ⟨a, ha, heq⟩ := hseen _ hmem
        exact hfree rfl a ha heq
      · have hdepth := Tree.length_le_entries h.isDir
        rw [List.length_cons, Nat.add_mul]
        omega

/-- **A walk never meets its bound.** -/
theorem length_lt (h : Descent t cwd source above names dir) : names.length < depthBound t := by
  obtain ⟨targets, hnodup, hdirs, -, hlen⟩ := h.exists_targets
  have hsub : targets ⊆ [] :: t.entries.map Prod.fst := by
    intro l hl
    by_cases hnil : l = []
    · exact hnil ▸ List.mem_cons_self
    · exact List.mem_cons_of_mem _
        (List.mem_map_of_mem (f := Prod.fst) (Tree.mem_of_get? (hdirs l hl) hnil))
  have hcount : targets.length ≤ t.entries.length + 1 := by
    simpa using (hnodup.subperm hsub).length_le
  have hdepth := Tree.length_le_entries h.isDir
  have hmul := Nat.mul_le_mul_right (t.entries.length + 1) hcount
  unfold depthBound
  omega

end Descent

/-! ## What is listed -/

/-- What a walk of the directory that `base` leads to has to list: something below it that names
lead to, when neither that nor a directory on the way to it is left out. -/
structure Due (t : Tree) (cwd : Loc) (source : Path) (skip : List Name → Node → Bool)
    (base names : List Name) (loc : Loc) (node : Node) : Prop where
  below : base <+: names
  ne : base ≠ names
  valid : ∀ n ∈ names, n.valid = true
  leads : t.Leads cwd source names loc node
  free : ∀ q l m, base <+: q → base ≠ q → q <+: names → t.Leads cwd source q l m →
    skip q m = false

theorem isPrefix_snoc_iff {base q : List Name} (hq : q <+: base ++ [name]) :
    base <+: q ∧ base ≠ q ↔ q = base ++ [name] := by
  constructor
  · rintro ⟨hbase, hne⟩
    rcases List.prefix_concat_iff.mp hq with rfl | hq
    · rfl
    · exact absurd (hbase.eq_of_length_le hq.length_le) hne
  · rintro rfl
    exact ⟨List.prefix_append _ _, by simp⟩

/-- An entry that is not left out is due. -/
theorem due_entry (hbase : ∀ n ∈ names, n.valid = true) (hname : name.valid = true)
    (hleads : t.Leads cwd source (names ++ [name]) loc node)
    (hskip : skip (names ++ [name]) node = false) :
    Due t cwd source skip names (names ++ [name]) loc node where
  below := List.prefix_append _ _
  ne := by simp
  valid := by
    intro n hn
    rcases List.mem_append.mp hn with hn | hn
    · exact hbase n hn
    · rwa [List.mem_singleton.mp hn]
  leads := hleads
  free := by
    intro q l m hbelow hne hq hl
    obtain rfl := (isPrefix_snoc_iff hq).mp ⟨hbelow, hne⟩
    rwa [(hl.unique hleads).2]

/-- What is due in a directory that is not left out is due from above. -/
theorem Due.lift {q : List Name} {dir : Loc}
    (h : Due t cwd source skip (names ++ [name]) q loc node)
    (hleads : t.Leads cwd source (names ++ [name]) dir .dir)
    (hskip : skip (names ++ [name]) .dir = false) : Due t cwd source skip names q loc node where
  below := (List.prefix_append _ _).trans h.below
  ne := by
    rintro rfl
    have hlen := h.below.length_le
    rw [List.length_append, List.length_singleton] at hlen
    omega
  valid := h.valid
  leads := h.leads
  free := by
    intro p l m hbelow hne hp hl
    by_cases hnext : p <+: names ++ [name]
    · obtain rfl := (isPrefix_snoc_iff hnext).mp ⟨hbelow, hne⟩
      rwa [(hl.unique hleads).2]
    · rcases List.prefix_or_prefix_of_prefix hp h.below with hle | hle
      · exact absurd hle hnext
      · exact h.free p l m hle (fun he => hnext (he ▸ List.prefix_rfl)) hp hl

/-- What is due below is due from the next directory on. -/
theorem Due.next {rest : List Name}
    (h : Due t cwd source skip names (names ++ [name] ++ rest) loc node) (hrest : rest ≠ []) :
    Due t cwd source skip (names ++ [name]) (names ++ [name] ++ rest) loc node where
  below := List.prefix_append _ _
  ne := fun he => hrest (List.self_eq_append_right.mp he)
  valid := h.valid
  leads := h.leads
  free := by
    intro q l m hbelow hne hq hl
    refine h.free q l m ((List.prefix_append _ _).trans hbelow) ?_ hq hl
    rintro rfl
    have hlen := hbelow.length_le
    rw [List.length_append, List.length_singleton] at hlen
    omega

/-- The step of `mem_ofDir`: an entry lists what is due at it and below it, if the walk of what it
leads to does. -/
theorem mem_walkAt (hdesc : Descent t cwd source above names dir)
    (hok : (walkAt t cwd source skip fuel ((names, dir) :: above) names dir name).fault = none)
    (ih : ∀ loc, Descent t cwd source ((names, dir) :: above) (names ++ [name]) loc →
      (ofDir t cwd source skip fuel ((names, dir) :: above) (names ++ [name]) loc).fault = none →
      ∀ v, v ∈ (ofDir t cwd source skip fuel ((names, dir) :: above) (names ++ [name]) loc).visits ↔
        Due t cwd source skip (names ++ [name]) v.names v.loc v.node) :
    v ∈ (walkAt t cwd source skip fuel ((names, dir) :: above) names dir name).visits ↔
      names ++ [name] <+: v.names ∧ Due t cwd source skip names v.names v.loc v.node := by
  obtain ⟨loc, node, hlook, hinner, hvisits⟩ := walkAt_ok hok
  obtain ⟨start, hstart⟩ := hdesc.source_isDir
  have hname := (look_cases hlook).1
  have hleads := leads_of_look hstart hdesc.valid hdesc.leads hlook
  rw [hvisits, mem_of_walkAt_ok]
  constructor
  · rintro ⟨hskip, rfl | ⟨rfl, hv⟩⟩
    · exact ⟨List.prefix_rfl, due_entry hdesc.valid hname hleads hskip⟩
    · have hdue := (ih loc (hdesc.enter hlook) (hinner rfl hskip) v).mp hv
      exact ⟨hdue.below, hdue.lift hleads hskip⟩
  · obtain ⟨vnames, vloc, vnode⟩ := v
    rintro ⟨hpre, hdue⟩
    have hskip := hdue.free _ loc node (List.prefix_append names [name]) (by simp) hpre hleads
    refine ⟨hskip, ?_⟩
    obtain ⟨rest, rfl⟩ := hpre
    by_cases hrest : rest = []
    · subst hrest
      simp only [List.append_nil] at hdue ⊢
      obtain ⟨rfl, rfl⟩ := hdue.leads.unique hleads
      exact Or.inl rfl
    · obtain ⟨l, hl⟩ := hdue.leads.dir_of_isPrefix (List.prefix_append _ rest)
        (fun he => hrest (List.self_eq_append_right.mp he)) hdue.valid
      obtain ⟨rfl, rfl⟩ := hl.unique hleads
      exact Or.inr ⟨rfl, (ih l (hdesc.enter hlook) (hinner rfl hskip) _).mpr (hdue.next hrest)⟩

/-- A walk of a directory that comes to its end lists what is due below it. -/
theorem mem_ofDir (hdesc : Descent t cwd source above names dir)
    (hfuel : depthBound t ≤ names.length + fuel)
    (hok : (ofDir t cwd source skip fuel above names dir).fault = none) :
    v ∈ (ofDir t cwd source skip fuel above names dir).visits ↔
      Due t cwd source skip names v.names v.loc v.node := by
  induction fuel generalizing above names dir v with
  | zero => exact absurd hdesc.length_lt (Nat.not_lt.mpr hfuel)
  | succ fuel ih =>
    rw [ofDir_succ] at hok ⊢
    obtain ⟨hall, hvisits⟩ := chain_ok hok
    have hentry (name : Name) (hmem : name ∈ t.sortedChildren dir) :
        v ∈ (walkAt t cwd source skip fuel ((names, dir) :: above) names dir name).visits ↔
          names ++ [name] <+: v.names ∧ Due t cwd source skip names v.names v.loc v.node := by
      refine mem_walkAt hdesc (hall _ (List.mem_map_of_mem hmem)) fun loc hnext hok v => ?_
      refine ih hnext ?_ hok
      rw [List.length_append, List.length_singleton]
      omega
    rw [hvisits, List.flatMap_map, List.mem_flatMap]
    constructor
    · rintro ⟨name, hmem, hv⟩
      exact ((hentry name hmem).mp hv).2
    · intro hdue
      obtain ⟨name, hname⟩ : ∃ name, names ++ [name] <+: v.names := by
        obtain ⟨rest, hrest⟩ := hdue.below
        cases rest with
        | nil => exact absurd (by simpa using hrest) hdue.ne
        | cons name rest => exact ⟨name, rest, by simpa using hrest⟩
      have hmem : name ∈ t.sortedChildren dir := by
        obtain ⟨l, m, hl⟩ := hdue.leads.of_isPrefix hname hdue.valid
        have hvalid : name.valid = true := hdue.valid name (hname.subset (by simp))
        obtain ⟨above, habove, hsome⟩ := hl.parent hvalid
        rw [(habove.unique hdesc.leads).1] at hsome
        exact Tree.mem_sortedChildren.mpr hsome
      exact ⟨name, hmem, (hentry name hmem).mpr ⟨hname, hdue⟩⟩

/-- **What a walk lists that comes to its end**: everything below the source that names lead to,
links followed, when neither that nor a directory on the way to it is left out. -/
theorem mem_ofSource (hok : (ofSource t cwd source skip).fault = none) :
    v ∈ (ofSource t cwd source skip).visits ↔ Due t cwd source skip [] v.names v.loc v.node := by
  unfold ofSource at hok ⊢
  cases hr : t.resolve cwd source with
  | error e =>
    rw [hr] at hok
    cases hok
  | ok pos =>
    rw [hr] at hok
    simp only at hok ⊢
    by_cases hdir : t.get? pos.loc = some .dir
    · rw [if_pos hdir] at hok ⊢
      have hstart : t.Leads cwd source [] pos.loc .dir :=
        ⟨pos, pos, hr, Tree.follow_nil, rfl, hdir⟩
      exact mem_ofDir (.start hstart) (by simp) hok
    · rw [if_neg hdir] at hok ⊢
      refine iff_of_false (by simp [empty]) fun hdue => hdir ?_
      obtain ⟨l, start, stop, hs, hf, rfl, hget⟩ :=
        hdue.leads.dir_of_isPrefix (List.nil_prefix) hdue.ne hdue.valid
      rw [hr] at hs
      cases hs
      rw [Tree.follow_nil] at hf
      cases hf
      exact hget

/-! ## The paths -/

theorem checkPath_of_visit_ok (h : (visit source names loc node).fault = none) :
    Tree.checkPath (source.descend names) = .ok ⟨⟩ := by
  unfold visit at h
  cases hc : Tree.checkPath (source.descend names) with
  | ok _ => rfl
  | error e =>
    rw [hc] at h
    cases node <;> cases h

theorem checkPath_of_mem_ofDir
    (hok : (ofDir t cwd source skip fuel above names dir).fault = none)
    (hv : v ∈ (ofDir t cwd source skip fuel above names dir).visits) :
    Tree.checkPath (source.descend v.names) = .ok ⟨⟩ := by
  induction fuel generalizing above names dir with
  | zero => cases hv
  | succ fuel ih =>
    rw [ofDir_succ] at hok hv
    obtain ⟨hall, hvisits⟩ := chain_ok hok
    rw [hvisits, List.flatMap_map, List.mem_flatMap] at hv
    obtain ⟨name, hname, hv⟩ := hv
    have hwalk := hall _ (List.mem_map_of_mem hname)
    unfold walkAt at hwalk hv
    cases hlook : look t cwd source ((names, dir) :: above) dir (names ++ [name]) name with
    | error fault =>
      rw [hlook] at hv
      cases hv
    | ok found =>
      obtain ⟨loc, node⟩ := found
      rw [hlook] at hwalk hv
      by_cases hskip : skip (names ++ [name]) node = true
      · simp only [if_pos hskip] at hv
        cases hv
      · simp only [if_neg hskip] at hwalk hv
        obtain ⟨hvisit, hrest, hboth⟩ := followedBy_ok hwalk
        rw [hboth, visit_ok hvisit, List.singleton_append, List.mem_cons] at hv
        rcases hv with rfl | hv
        · exact checkPath_of_visit_ok hvisit
        · by_cases hdir : node = .dir
          · rw [if_pos hdir] at hrest hv
            exact ih hrest hv
          · rw [if_neg hdir] at hv
            cases hv

/-- A walk that comes to its end could open all that it lists under its path. -/
theorem checkPath_of_mem_ofSource (hok : (ofSource t cwd source skip).fault = none)
    (hv : v ∈ (ofSource t cwd source skip).visits) :
    Tree.checkPath (source.descend v.names) = .ok ⟨⟩ := by
  unfold ofSource at hok hv
  cases hr : t.resolve cwd source with
  | error e =>
    rw [hr] at hv
    cases hv
  | ok pos =>
    rw [hr] at hok hv
    simp only at hok hv
    by_cases hdir : t.get? pos.loc = some .dir
    · rw [if_pos hdir] at hok hv
      exact checkPath_of_mem_ofDir hok hv
    · rw [if_neg hdir] at hv
      cases hv

/-! ## The order

A walk that ends early has listed the beginning of what it would list, so the order does not depend
on how it ends. -/

theorem visits_followedBy (a b : Walk) : (a.followedBy b).visits <+: a.visits ++ b.visits := by
  unfold followedBy
  cases a.fault with
  | some fault => exact List.prefix_append _ _
  | none => exact List.prefix_rfl

theorem visits_chain (ws : List Walk) : (chain ws).visits <+: ws.flatMap visits := by
  induction ws with
  | nil => exact List.prefix_rfl
  | cons w ws ih =>
    exact (visits_followedBy w (chain ws)).trans ((List.prefix_append_right_inj _).mpr ih)

/-- An entry is listed as it was found, or as an empty file if it could not be opened. -/
theorem visits_visit (source : Path) (names : List Name) (loc : Loc) (node : Node) :
    ∃ shown, (visit source names loc node).visits = [⟨names, loc, shown⟩] ∧
      (shown = node ∨ shown = .file [] 0) := by
  unfold visit
  cases Tree.checkPath (source.descend names) with
  | ok _ => exact ⟨node, rfl, Or.inl rfl⟩
  | error e =>
    cases node with
    | dir => exact ⟨.dir, rfl, Or.inl rfl⟩
    | file _ _ | link _ | device _ => exact ⟨.file [] 0, rfl, Or.inr rfl⟩

/-- An entry lists nothing, or itself and then what is below it. -/
theorem visits_walkAt (t : Tree) (cwd : Loc) (source : Path) (skip : List Name → Node → Bool)
    (fuel : Nat) (above : Ancestors) (names : List Name) (dir : Loc) (name : Name) :
    (walkAt t cwd source skip fuel above names dir name).visits = [] ∨
      ∃ loc node shown, look t cwd source above dir (names ++ [name]) name = .ok (loc, node) ∧
        (shown = node ∨ shown = .file [] 0) ∧
        (walkAt t cwd source skip fuel above names dir name).visits <+:
          ⟨names ++ [name], loc, shown⟩ :: if node = .dir then
            (ofDir t cwd source skip fuel above (names ++ [name]) loc).visits else [] := by
  unfold walkAt
  cases look t cwd source above dir (names ++ [name]) name with
  | error fault => exact Or.inl rfl
  | ok found =>
    obtain ⟨loc, node⟩ := found
    by_cases hskip : skip (names ++ [name]) node = true
    · exact Or.inl (by simp only [if_pos hskip, empty])
    · right
      obtain ⟨shown, hvisit, hshown⟩ := visits_visit source (names ++ [name]) loc node
      refine ⟨loc, node, shown, rfl, hshown, ?_⟩
      simp only [if_neg hskip]
      refine (visits_followedBy _ _).trans ?_
      rw [hvisit]
      by_cases hdir : node = .dir
      · simp [hdir]
      · simp [hdir, empty]

/-- What can be said of everything that the walk of the directory at `base` lists. -/
structure Listed (t : Tree) (base : List Name) (v : Visit) : Prop where
  below : base <+: v.names
  ne : base ≠ v.names
  valid : (∀ n ∈ base, n.valid = true) → ∀ n ∈ v.names, n.valid = true
  found : t.get? v.loc = some v.node ∨ v.node = .file [] 0

/-- The step of `listed_of_mem_ofDir`. -/
theorem listed_of_mem_walkAt
    (ih : ∀ loc, ∀ v ∈ (ofDir t cwd source skip fuel above (names ++ [name]) loc).visits,
      Listed t (names ++ [name]) v)
    (hv : v ∈ (walkAt t cwd source skip fuel above names dir name).visits) :
    names ++ [name] <+: v.names ∧ Listed t names v := by
  rcases visits_walkAt t cwd source skip fuel above names dir name with
    hnone | ⟨loc, node, shown, hlook, hshown, hvisits⟩
  · rw [hnone] at hv
    cases hv
  obtain ⟨hname, hwhere⟩ := look_cases hlook
  have hvalid (hbase : ∀ n ∈ names, n.valid = true) : ∀ n ∈ names ++ [name], n.valid = true := by
    intro n hn
    rcases List.mem_append.mp hn with hn | hn
    · exact hbase n hn
    · rwa [List.mem_singleton.mp hn]
  have hget : t.get? loc = some node := by
    obtain ⟨-, hget, -⟩ | ⟨-, -, -, hget, -⟩ := hwhere <;> exact hget
  rcases List.mem_cons.mp (hvisits.subset hv) with rfl | hv
  · refine ⟨List.prefix_rfl, List.prefix_append _ _, by simp, hvalid, ?_⟩
    exact hshown.imp (fun h => by rw [h, hget]) id
  · have hinner : Listed t (names ++ [name]) v := by
      split_ifs at hv
      · exact ih loc v hv
      · cases hv
    refine ⟨hinner.below, (List.prefix_append _ _).trans hinner.below, fun he => ?_,
      fun hbase => hinner.valid (hvalid hbase), hinner.found⟩
    have hlen := (he ▸ hinner.below).length_le
    rw [List.length_append, List.length_singleton] at hlen
    omega

theorem listed_of_mem_ofDir
    (hv : v ∈ (ofDir t cwd source skip fuel above names dir).visits) : Listed t names v := by
  induction fuel generalizing above names dir v with
  | zero => cases hv
  | succ fuel ih =>
    rw [ofDir_succ] at hv
    have hmem := (visits_chain _).subset hv
    rw [List.flatMap_map, List.mem_flatMap] at hmem
    obtain ⟨name, -, hmem⟩ := hmem
    exact (listed_of_mem_walkAt (fun loc v hv => ih hv) hmem).2

/-- Each directory comes before what is in it, and siblings come in byte order. -/
theorem ofDir_pairwise : (ofDir t cwd source skip fuel above names dir).visits.Pairwise fun v w =>
    List.Lex (· < ·) v.names w.names := by
  induction fuel generalizing above names dir with
  | zero => exact List.Pairwise.nil
  | succ fuel ih =>
    rw [ofDir_succ]
    refine List.Pairwise.sublist (visits_chain _).sublist ?_
    rw [List.flatMap_map, List.pairwise_flatMap]
    constructor
    · intro name hmem
      rcases visits_walkAt t cwd source skip fuel ((names, dir) :: above) names dir name with
        hnone | ⟨loc, node, shown, -, -, hvisits⟩
      · rw [hnone]
        exact List.Pairwise.nil
      · refine List.Pairwise.sublist hvisits.sublist ?_
        split_ifs with hdir
        · refine List.pairwise_cons.mpr ⟨fun w hw => ?_, ih⟩
          have hlisted := listed_of_mem_ofDir hw
          exact Tree.lex_of_isPrefix hlisted.below hlisted.ne
        · exact List.pairwise_singleton _ _
    · refine List.Pairwise.imp (fun {a b} hab v hv w hw => ?_) (Tree.sortedChildren_pairwise t dir)
      have hpre {name : Name} {v : Visit}
          (hv : v ∈ (walkAt t cwd source skip fuel ((names, dir) :: above) names dir name).visits) :
          names ++ [name] <+: v.names :=
        (listed_of_mem_walkAt (fun loc v hv => listed_of_mem_ofDir hv) hv).1
      exact Tree.lex_of_lt hab (hpre hv) (hpre hw)

/-- What a walk lists is what the walk of the directory lists that the source leads to. -/
theorem exists_ofDir (hv : v ∈ (ofSource t cwd source skip).visits) :
    ∃ pos, t.resolve cwd source = .ok pos ∧ t.get? pos.loc = some .dir ∧
      ofSource t cwd source skip = ofDir t cwd source skip (depthBound t) [] [] pos.loc := by
  unfold ofSource at hv ⊢
  cases hr : t.resolve cwd source with
  | error e =>
    rw [hr] at hv
    cases hv
  | ok pos =>
    rw [hr] at hv
    simp only at hv ⊢
    by_cases hdir : t.get? pos.loc = some .dir
    · exact ⟨pos, rfl, hdir, if_pos hdir⟩
    · rw [if_neg hdir] at hv
      cases hv

theorem listed_of_mem_ofSource (hv : v ∈ (ofSource t cwd source skip).visits) :
    Listed t [] v := by
  obtain ⟨pos, -, -, heq⟩ := exists_ofDir hv
  rw [heq] at hv
  exact listed_of_mem_ofDir hv

theorem ofSource_pairwise (t : Tree) (cwd : Loc) (source : Path)
    (skip : List Name → Node → Bool) :
    (ofSource t cwd source skip).visits.Pairwise fun v w => List.Lex (· < ·) v.names w.names := by
  cases hvisits : (ofSource t cwd source skip).visits with
  | nil => exact List.Pairwise.nil
  | cons v visits =>
    obtain ⟨pos, -, -, heq⟩ := exists_ofDir (hvisits ▸ List.mem_cons_self)
    rw [← hvisits, heq]
    exact ofDir_pairwise

end Zipship.Package.Walk
