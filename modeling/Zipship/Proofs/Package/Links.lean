import Zipship.Proofs.Package.Abandoned

/-!
# Walking through links

Links make a graph of a tree, and the directories that a walk is in keep it from going round: a
link that leads back to one of them ends the walk (`fault_ofSource_loop`), and nothing is listed
below one (`not_obstacle_of_mem`). Only links are held against the directories on the way. A real
directory may be one of them again, when a link led out and another way leads in; then the walk goes
on, until the next link leads back.

That this comes to an end is what `Walks` says. It is the walk without any bound, and there is
exactly one for each source, the one that is computed (`walks_iff`). Every other link to a
directory is followed, and what is in that directory is archived under the names of the link
(`writeArchive_follows_links`), as long as the operating system looks up its path: it gives up after
40 links (`many_links_are_not_followed`).
-/

namespace Zipship.Package

namespace Walk

variable {t : Tree} {cwd dir loc : Loc} {source : Path} {skip : List Name → Node → Bool}
  {fuel : Nat} {above : Ancestors} {names q : List Name} {name : Name} {node : Node}
  {fault : Fault} {v : Visit} {w w' : Walk} {pos : Tree.Position}

/-! ## The walk without a bound -/

/-- The walk of an entry, when `inner` are the walks of the directories that it may lead to. -/
def entryWalk (t : Tree) (cwd : Loc) (source : Path) (skip : List Name → Node → Bool)
    (above : Ancestors) (names : List Name) (dir : Loc) (name : Name) (inner : Loc → Walk) : Walk :=
  match look t cwd source above dir (names ++ [name]) name with
  | .error fault => ⟨[], some fault⟩
  | .ok (loc, node) =>
    if skip (names ++ [name]) node then empty
    else (visit source (names ++ [name]) loc node).followedBy
      (if node = .dir then inner loc else empty)

/-- The walk of a directory, however deep it goes: it is made of the walks of all directories that
its entries lead to and that are not left out. -/
inductive Walks (t : Tree) (cwd : Loc) (source : Path) (skip : List Name → Node → Bool) :
    Ancestors → List Name → Loc → Walk → Prop
  | ofEntries {above : Ancestors} {names : List Name} {dir : Loc} (inner : Name → Loc → Walk)
      (h : ∀ name ∈ t.sortedChildren dir, ∀ loc,
        look t cwd source ((names, dir) :: above) dir (names ++ [name]) name = .ok (loc, .dir) →
        skip (names ++ [name]) .dir = false →
        Walks t cwd source skip ((names, dir) :: above) (names ++ [name]) loc (inner name loc)) :
      Walks t cwd source skip above names dir (chain ((t.sortedChildren dir).map fun name =>
        entryWalk t cwd source skip ((names, dir) :: above) names dir name (inner name)))

/-- The walk that is computed is the one without a bound. -/
theorem walks_ofDir (hdesc : Descent t cwd source above names dir)
    (hfuel : depthBound t ≤ names.length + fuel) :
    Walks t cwd source skip above names dir (ofDir t cwd source skip fuel above names dir) := by
  induction fuel generalizing above names dir with
  | zero => exact absurd hdesc.length_lt (Nat.not_lt.mpr hfuel)
  | succ fuel ih =>
    refine .ofEntries
      (fun name => ofDir t cwd source skip fuel ((names, dir) :: above) (names ++ [name])) ?_
    intro name _ loc hlook _
    refine ih (hdesc.enter hlook) ?_
    rw [List.length_append, List.length_singleton]
    omega

/-- There is only one walk without a bound. -/
theorem Walks.unique (h : Walks t cwd source skip above names dir w)
    (h' : Walks t cwd source skip above names dir w') : w = w' := by
  induction h generalizing w' with
  | @ofEntries above names dir inner _ ih =>
    cases h' with
    | ofEntries inner' h' =>
      refine congrArg chain (List.map_congr_left fun name hname => ?_)
      unfold entryWalk
      cases hlook : look t cwd source ((names, dir) :: above) dir (names ++ [name]) name with
      | error fault => rfl
      | ok found =>
        obtain ⟨loc, node⟩ := found
        simp only
        by_cases hskip : skip (names ++ [name]) node = true
        · rw [if_pos hskip, if_pos hskip]
        · by_cases hdir : node = .dir
          · subst hdir
            rw [Bool.not_eq_true] at hskip
            rw [ih name hname loc hlook hskip (h' name hname loc hlook hskip)]
          · simp only [if_neg hdir]

/-- **A walk always ends**: from a source directory there is exactly one, and it is computed. -/
theorem walks_iff (hsource : t.resolve cwd source = .ok pos)
    (hdir : t.get? pos.loc = some .dir) (w : Walk) :
    Walks t cwd source skip [] [] pos.loc w ↔ w = ofSource t cwd source skip := by
  have hstart : t.Leads cwd source [] pos.loc .dir :=
    ⟨pos, pos, hsource, Tree.follow_nil, rfl, hdir⟩
  have heq : ofSource t cwd source skip = ofDir t cwd source skip (depthBound t) [] [] pos.loc := by
    unfold ofSource
    rw [hsource]
    exact if_pos hdir
  have hwalks : Walks t cwd source skip [] [] pos.loc
      (ofDir t cwd source skip (depthBound t) [] [] pos.loc) :=
    walks_ofDir (.start hstart) (by simp)
  rw [heq]
  exact ⟨fun h => h.unique hwalks, fun h => h ▸ hwalks⟩

/-- What is to be listed is listed, if it precedes whatever can end the walk. -/
theorem mem_of_due (h : Due t cwd source skip [] names loc node)
    (hbefore : ∀ q, Barrier t cwd source skip q → Tree.Precedes names q) :
    ⟨names, loc, node⟩ ∈ (ofSource t cwd source skip).visits := by
  cases hfault : (ofSource t cwd source skip).fault with
  | none => exact (mem_ofSource hfault).mpr h
  | some fault =>
    obtain ⟨earlier, last, hvisits, hearlier, -⟩ := visits_ofSource_of_fault hfault
    rw [hvisits]
    exact List.mem_append_left _
      ((hearlier _).mpr ⟨h, hbefore _ (fault_ofSource_some hfault).1⟩)

/-! ## Links that lead back -/

/-- In an open directory there is a link, and its path leads to a directory. -/
structure DirLink (t : Tree) (cwd : Loc) (source : Path) (skip : List Name → Node → Bool)
    (names : List Name) (name : Name) (pos : Tree.Position) : Prop where
  valid : ∀ n ∈ names, n.valid = true
  isOpen : Open t cwd source skip names
  isLink : ∃ dir target, t.Leads cwd source names dir .dir ∧
    t.get? (dir ++ [name]) = some (.link target)
  resolves : t.resolve cwd (source.descend (names ++ [name])) = .ok pos
  isDir : t.get? pos.loc = some .dir

/-- The names go through the directory at `loc`. -/
def OnPath (t : Tree) (cwd : Loc) (source : Path) (names : List Name) (loc : Loc) : Prop :=
  ∃ q, q <+: names ∧ t.Leads cwd source q loc .dir

/-- A link to a directory is an obstacle exactly if it leads back. -/
theorem DirLink.obstacle_iff (h : DirLink t cwd source skip names name pos) :
    Obstacle t cwd source skip names name ↔ OnPath t cwd source names pos.loc := by
  constructor
  · intro hobstacle
    rcases hobstacle.blocked with hbroken | ⟨stop, q, hr, hq, hback⟩
    · exact absurd h.resolves (hbroken pos)
    · rw [h.resolves] at hr
      cases hr
      exact ⟨q, hq, hback⟩
  · rintro ⟨q, hq, hback⟩
    exact ⟨h.valid, h.isOpen, h.isLink, Or.inr ⟨pos, q, h.resolves, hq, hback⟩⟩

/-- A link to a directory that cannot be followed leads to one that the walk is in. -/
theorem look_loop (hr : t.resolve cwd (source.descend (names ++ [name])) = .ok pos)
    (hname : name ∈ t.sortedChildren dir)
    (h : look t cwd source above dir (names ++ [name]) name = .error fault) :
    ∃ a ∈ above, a.2 = pos.loc ∧ fault = .loop (names ++ [name]) a.1 := by
  obtain ⟨node, hnode, -⟩ := Tree.get?_of_resolve hr
  obtain ⟨-, -, ⟨target, hlink⟩, -⟩ := look_error hname h
  unfold look at h
  simp only [hlink, hr, hnode] at h
  split at h
  · rename_i a _ hfind
    cases h
    exact ⟨a, List.mem_of_find?_eq_some hfind, by simpa using List.find?_some hfind, rfl⟩
  · cases h
  · rename_i hnone
    cases hnone

/-- **The first link that leads back ends the walk**, whatever its name. -/
theorem fault_ofSource_loop (h : DirLink t cwd source skip names name pos)
    (hback : OnPath t cwd source names pos.loc)
    (hfirst : ∀ p, Barrier t cwd source skip p → ¬ Tree.Precedes p (names ++ [name])) :
    ∃ q, q <+: names ∧ t.Leads cwd source q pos.loc .dir ∧
      (ofSource t cwd source skip).fault = some (.loop (names ++ [name]) q) := by
  have hobstacle := h.obstacle_iff.mpr hback
  obtain ⟨dir, hstart, heq⟩ | ⟨hnone, -⟩ := ofSource_cases t cwd source skip
  · rw [heq]
    obtain ⟨above, l, fault, hdesc, hname, hlook, hfault⟩ :=
      hobstacle.exists_fault hstart fun fault hfault hbefore =>
        hfirst _ (fault_ofSource_some (heq ▸ hfault)).1 hbefore
    obtain ⟨a, ha, hloc, rfl⟩ := look_loop h.resolves hname hlook
    obtain ⟨hq, hleads⟩ := hdesc.mem_ancestors_iff.mp ha
    exact ⟨a.1, hq, hloc ▸ hleads, hfault⟩
  · obtain ⟨q, -, hleads⟩ := hback
    exact absurd hleads (hnone _ _)

/-- Nothing is listed below an obstacle, nor at one. -/
theorem not_obstacle_of_mem (hv : v ∈ (ofSource t cwd source skip).visits)
    (hp : names ++ [name] <+: v.names) : ¬ Obstacle t cwd source skip names name := by
  intro hobstacle
  cases hfault : (ofSource t cwd source skip).fault with
  | none => exact fault_ofSource_none hfault (.link hobstacle)
  | some fault =>
    obtain ⟨-, hfirst⟩ := fault_ofSource_some hfault
    obtain ⟨earlier, last, hvisits, hearlier, hlast⟩ := visits_ofSource_of_fault hfault
    have hnot := hfirst _ (.link hobstacle)
    rcases List.mem_append.mp (hvisits ▸ hv) with hv | hv
    · have hprecedes := ((hearlier v).mp hv).2
      by_cases heq : names ++ [name] = v.names
      · exact hnot (heq ▸ hprecedes)
      · exact hnot ((Tree.precedes_of_isPrefix hp heq).trans hprecedes)
    · cases hlast with
      | source | link => cases hv
      | refused _ _ hdue hstands =>
        obtain rfl := List.mem_singleton.mp hv
        by_cases heq : names ++ [name] = fault.names
        · obtain ⟨above, n, dir, hnames, hdir, rfl⟩ := hstands
          obtain ⟨l, target, hl, hlink⟩ := hobstacle.isLink
          obtain ⟨rfl, hn⟩ := List.append_inj' (heq.trans hnames) rfl
          obtain rfl : name = n := by simpa using hn
          obtain ⟨rfl, -⟩ := hl.unique hdir
          exact hdue.leads.not_link target (Option.some.inj
            (hdue.leads.get?_eq.symm.trans hlink))
        · exact hnot (Tree.precedes_of_isPrefix hp heq)

/-! ## Links that are followed -/

namespace DirLink

theorem name_valid (h : DirLink t cwd source skip names name pos) : name.valid = true := by
  obtain ⟨dir, target, -, hlink⟩ := h.isLink
  exact (Tree.parent_of_get? hlink).2

/-- From a link on, names lead where they lead from the directory that it leads to. -/
theorem leads_iff (h : DirLink t cwd source skip names name pos) {rest : List Name} :
    t.Leads cwd source (names ++ [name] ++ rest) loc node ↔
      ∃ stop, t.follow pos.links pos.loc rest = .ok stop ∧ stop.loc = loc ∧
        t.get? loc = some node := by
  obtain ⟨dir, target, ⟨start, -, hs, -⟩, -⟩ := h.isLink
  have hfollow : t.follow start.links start.loc (names ++ [name]) = .ok pos := by
    have hr := h.resolves
    rw [Tree.resolve_descend hs (by simp) fun n hn => (Name.isEntry_of_valid
      ((List.mem_append.mp hn).elim (h.valid n) fun hn =>
        List.mem_singleton.mp hn ▸ h.name_valid)).toIsPiece] at hr
    obtain ⟨-, -, hf⟩ := bind_eq_ok.mp hr
    exact hf
  constructor
  · rintro ⟨start', stop, hs', hf, hloc, hget⟩
    rw [hs] at hs'
    cases hs'
    obtain ⟨mid, hmid, hend⟩ := Tree.follow_append_ok hf
    rw [hfollow] at hmid
    cases hmid
    exact ⟨stop, hend, hloc, hget⟩
  · rintro ⟨stop, hend, hloc, hget⟩
    refine ⟨start, stop, hs, ?_, hloc, hget⟩
    rw [Tree.follow_append, hfollow]
    exact hend

/-- Names that go on from a link that is not left out are to be listed, if nothing that they go
through is left out. -/
theorem due (h : DirLink t cwd source skip names name pos)
    (hskip : skip (names ++ [name]) .dir = false) {rest : List Name} {stop : Tree.Position}
    (hrest : ∀ n ∈ rest, n.valid = true) (hf : t.follow pos.links pos.loc rest = .ok stop)
    (hget : t.get? stop.loc = some node)
    (hfree : ∀ q l m, q <+: rest → q ≠ [] → t.Leads cwd source (names ++ [name] ++ q) l m →
      skip (names ++ [name] ++ q) m = false) :
    Due t cwd source skip [] (names ++ [name] ++ rest) stop.loc node where
  below := List.nil_prefix
  ne := by simp
  valid := by
    simp only [List.forall_mem_append, List.forall_mem_singleton]
    exact ⟨⟨h.valid, h.name_valid⟩, hrest⟩
  leads := h.leads_iff.mpr ⟨stop, hf, rfl, hget⟩
  free := by
    intro q l m _ hne hq hl
    have hlink : t.Leads cwd source (names ++ [name]) pos.loc .dir := by
      have hend : t.Leads cwd source (names ++ [name] ++ []) pos.loc .dir ↔ _ := h.leads_iff
      rw [List.append_nil] at hend
      exact hend.mpr ⟨pos, Tree.follow_nil, rfl, h.isDir⟩
    have hupto (hq : q <+: names ++ [name]) : skip q m = false :=
      h.isOpen.snoc hlink hskip q l m hne.symm hq hl
    rcases List.prefix_or_prefix_of_prefix hq (List.prefix_append (names ++ [name]) rest) with
      hle | ⟨r, rfl⟩
    · exact hupto hle
    · by_cases hr : r = []
      · exact hupto (by simp [hr])
      · exact hfree r l m ((List.prefix_append_right_inj _).mp hq) hr hl

end DirLink

end Walk

variable {t t' opened : Tree} {cwd place : Loc} {source dest exclude : Path}
  {result : Except Error Summary}

/-- How links were followed for an archive that was written with this result. The tree is the one in
which the file of the archive was just created. -/
structure LinksFollowed (t : Tree) (cwd : Loc) (source dest exclude : Path)
    (result : Except Error Summary) (visits : List Visit) : Prop where
  /-- There is exactly one walk from a source directory, however deep it goes, and the result is
  what came of it. -/
  ends : ∀ pos, t.resolve cwd source = .ok pos → t.get? pos.loc = some .dir →
    ∃ w, (∀ x, Walk.Walks t cwd source (isSkipped source dest exclude) [] [] pos.loc x ↔ x = w) ∧
      w.visits = visits ∧ (w.fault = none → result = .ok (summarize visits)) ∧
      ∀ fault, w.fault = some fault → result = .error (faultError source fault)
  /-- The first link that leads back ends it. -/
  loop : ∀ names name pos,
    Walk.DirLink t cwd source (isSkipped source dest exclude) names name pos →
    Walk.OnPath t cwd source names pos.loc →
    (∀ q, Walk.Barrier t cwd source (isSkipped source dest exclude) q →
      ¬ Tree.Precedes q (names ++ [name])) →
    ∃ q, q <+: names ∧ t.Leads cwd source q pos.loc .dir ∧
      result = .error (.walk (source.descend (names ++ [name]))
        (Walk.Fault.message source (.loop (names ++ [name]) q)))
  /-- Nothing is listed through a link that leads back. -/
  spared : ∀ names name pos,
    Walk.DirLink t cwd source (isSkipped source dest exclude) names name pos →
    Walk.OnPath t cwd source names pos.loc → ∀ v ∈ visits, ¬ names ++ [name] <+: v.names
  /-- What is found through any other link is listed, if nothing on the way is left out and nothing
  ends the walk before. -/
  followed : ∀ names name pos,
    Walk.DirLink t cwd source (isSkipped source dest exclude) names name pos →
    ¬ Walk.OnPath t cwd source names pos.loc →
    ¬ LeftOut source dest exclude (names ++ [name]) .dir →
    ∀ rest stop node, (∀ n ∈ rest, n.valid = true) → t.follow pos.links pos.loc rest = .ok stop →
      t.get? stop.loc = some node →
      (∀ q l m, q <+: rest → q ≠ [] → t.Leads cwd source (names ++ [name] ++ q) l m →
        ¬ LeftOut source dest exclude (names ++ [name] ++ q) m) →
      (∀ q, Walk.Barrier t cwd source (isSkipped source dest exclude) q →
        Tree.Precedes (names ++ [name] ++ rest) q) →
      ⟨names ++ [name] ++ rest, stop.loc, node⟩ ∈ visits

theorem linksFollowed
    (hok : (archiveWalk t cwd source dest exclude).fault = none →
      result = .ok (summarize (archiveWalk t cwd source dest exclude).visits))
    (hfault : ∀ fault, (archiveWalk t cwd source dest exclude).fault = some fault →
      result = .error (faultError source fault)) :
    LinksFollowed t cwd source dest exclude result
      (archiveWalk t cwd source dest exclude).visits where
  ends pos hr hdir := ⟨_, Walk.walks_iff hr hdir, rfl, hok, hfault⟩
  loop names name pos hlink hback hfirst := by
    obtain ⟨q, hq, hleads, hend⟩ := Walk.fault_ofSource_loop hlink hback hfirst
    exact ⟨q, hq, hleads, hfault _ hend⟩
  spared names name pos hlink hback v hv hp :=
    Walk.not_obstacle_of_mem hv hp (hlink.obstacle_iff.mpr hback)
  followed names name pos hlink hback hkept rest stop node hrest hf hget hfree hbefore := by
    have hskip : ∀ q m, q ≠ [] → ¬ LeftOut source dest exclude q m →
        isSkipped source dest exclude q m = false := fun q m hne hq =>
      Bool.eq_false_iff.mpr (mt (isSkipped_iff hne).mp hq)
    have hdue := hlink.due (hskip _ _ (by simp) hkept) hrest hf hget fun q l m hq hne hl =>
      hskip _ _ (by simp) (hfree q l m hq hne hl)
    exact Walk.mem_of_due hdue hbefore

/-- What comes of an archive by its walk. -/
def walkResult (source : Path) (w : Walk) : Except Error Summary :=
  match w.fault with
  | some fault => .error (faultError source fault)
  | none => .ok (summarize w.visits)

/-- **Links are followed**, unless they lead back. What the walk lists is archived, and the result
is that of the walk, unless the archive refuses an entry: then the refusal is the result. -/
theorem writeArchive_follows_links (hcreate : Tree.create cwd dest t = .ok (place, opened))
    (hwritable : opened.get? place ≠ some (.device .full))
    (hself : ∀ v ∈ (archiveWalk opened cwd source dest exclude).visits, v.loc ≠ place)
    (h : (writeArchive cwd source dest exclude).exec t = (result, t')) :
    ∃ (visits : List Visit) (walked : Except Error Summary),
      visits = (archiveWalk opened cwd source dest exclude).visits ∧
      LinksFollowed opened cwd source dest exclude walked visits ∧
      ((∃ entries, result = walked ∧
          ((∃ mode, t'.get? place = some (.file (Zip.encode entries) mode)) ∨
            t'.get? place = some (.device .null)) ∧
          List.Forall₂ (fun v entry => Describes entry v.names v.node) visits entries) ∨
        ∃ taken refused rest e, visits = taken ++ refused :: rest ∧ Takes place taken ∧
          ¬ Takes place (taken ++ [refused]) ∧ result = .error e ∧ IsRefusal source dest
            (archiveWalk opened cwd source dest exclude).fault refused rest e) := by
  refine ⟨_, walkResult source (archiveWalk opened cwd source dest exclude), rfl,
    linksFollowed (fun hok => ?_) (fun fault hfault => ?_), ?_⟩
  · rw [walkResult, hok]
  · rw [walkResult, hfault]
  rcases takesFrom_or_refuses place .empty (archiveWalk opened cwd source dest exclude).visits with
    htakes | ⟨taken, refused, rest, hvisits, htaken, hrefused, hfails⟩
  · obtain ⟨written, hwrite⟩ := Tree.exists_write hwritable
      (draftOf place (archiveWalk opened cwd source dest exclude).visits).close
    rw [exec_writeArchive_taken hcreate rfl htakes hwrite] at h
    obtain ⟨hresult, rfl⟩ := Prod.mk.inj h
    rw [draftOf_close hself] at hwrite
    obtain ⟨-, hfile⟩ := Tree.create_write_ok hcreate (encode_ne_nil _) hwrite
    refine Or.inl ⟨_, hresult.symm, hfile, ?_⟩
    rw [List.forall₂_map_right_iff, List.forall₂_same]
    intro v hv
    exact describes_entryFor (Walk.listed_of_mem_ofSource hv).ne.symm (valid_of_mem_archiveWalk hv)
  · obtain ⟨e, he, hrefusal⟩ :=
      hfails source dest (archiveWalk opened cwd source dest exclude).fault
    obtain ⟨written, hwrite⟩ := Tree.exists_write hwritable (fill source dest place
      (archiveWalk opened cwd source dest exclude).fault .empty
      (archiveWalk opened cwd source dest exclude).visits).1
    rw [exec_writeArchive_created hcreate rfl rfl hwrite, he] at h
    exact Or.inr ⟨taken, refused, rest, e, hvisits, htaken, hrefused, (Prod.mk.inj h).1.symm,
      hrefusal⟩

/-- Sources with two links to the directory that they are in. In there they are a real directory. -/
def roundabout : Tree :=
  Tree.placeAll [] [.link ⟨"/p/s/up"⟩ ⟨".."⟩, .link ⟨"/p/s/again"⟩ ⟨".."⟩, .file ⟨"/p/m"⟩ [1] 0o644]
    Tree.empty

set_option maxRecDepth 100000 in
theorem writeArchive_follows_links_roundabout :
    ∃ opened t' visits entries,
      Tree.create [] ⟨"/o.zip"⟩ roundabout = .ok (["o.zip"], opened) ∧
      opened.get? ["o.zip"] ≠ some (.device .full) ∧
      (archiveWalk opened [] ⟨"/p/s"⟩ ⟨"/o.zip"⟩ ⟨"/none"⟩).visits.map Visit.names =
        ([["again"], ["again", "m"], ["again", "s"]] : List (List Name)) ∧
      (writeArchive [] ⟨"/p/s"⟩ ⟨"/o.zip"⟩ ⟨"/none"⟩).exec roundabout =
        (.error (.walk ⟨"/p/s/again/s/again"⟩
          "File system loop found: /p/s/again/s/again points to an ancestor /p/s/again"), t') ∧
      LinksFollowed opened [] ⟨"/p/s"⟩ ⟨"/o.zip"⟩ ⟨"/none"⟩ (.error (.walk ⟨"/p/s/again/s/again"⟩
        "File system loop found: /p/s/again/s/again points to an ancestor /p/s/again")) visits ∧
      List.Forall₂ (fun v entry => Describes entry v.names v.node) visits entries := by
  let walked : List Visit := [⟨["again"], ["p"], .dir⟩,
    ⟨["again", "m"], ["p", "m"], .file [1] 0o644⟩, ⟨["again", "s"], ["p", "s"], .dir⟩]
  have hwalk : (Tree.create [] ⟨"/o.zip"⟩ roundabout).map (fun created =>
      (created.1, created.2.get? ["o.zip"],
        archiveWalk created.2 [] ⟨"/p/s"⟩ ⟨"/o.zip"⟩ ⟨"/none"⟩)) =
      .ok (["o.zip"], some (.file [] 0o644),
        ⟨walked, some (.loop ["again", "s", "again"] ["again"])⟩) := by
    decide +kernel
  have herror : faultError ⟨"/p/s"⟩ (.loop ["again", "s", "again"] ["again"]) =
      .walk ⟨"/p/s/again/s/again"⟩
        "File system loop found: /p/s/again/s/again points to an ancestor /p/s/again" := by
    decide +kernel
  obtain ⟨⟨place, opened⟩, hcreate, hcreated⟩ := map_eq_ok hwalk
  obtain ⟨hplace, hrest⟩ := Prod.mk.inj hcreated
  obtain ⟨hfile, hwalk⟩ := Prod.mk.inj hrest
  obtain rfl : place = _ := hplace
  have hself : ∀ v ∈ walked, v.loc ≠ (["o.zip"] : Loc) := by decide +kernel
  have htakes : Takes ["o.zip"] walked := (takes_iff hself).mpr ⟨by decide +kernel, fun v hv => by
    have hsmall : ∀ v ∈ walked, v.node ≠ .device .full ∧ v.node.content.length ≤ 4290000000 := by
      decide +kernel
    exact .of_length_le (hsmall v hv).1 (hsmall v hv).2⟩
  have hrun := exec_writeArchive_taken hcreate hwalk htakes (Tree.write_of_file hfile)
  simp only [herror] at hrun
  obtain ⟨visits, result, hvisits, hfollowed, ⟨entries, rfl, -, hall⟩ |
      ⟨taken, refused, rest, -, hparts, -, hrefused, -⟩⟩ :=
    writeArchive_follows_links hcreate (by simp [hfile]) (by rw [hwalk]; exact hself) hrun
  · exact ⟨opened, _, visits, entries, hcreate, by simp [hfile], by rw [hwalk]; rfl, hrun,
      hfollowed, hall⟩
  · rw [hvisits, hwalk] at hparts
    rw [show walked = taken ++ [refused] ++ rest by simpa using hparts] at htakes
    exact absurd (TakesFrom.left htakes) hrefused

/-- A way of 20 links back to the root, and then to a name. -/
def detour (n : Name) : Path := ⟨"../a/a/a/a/a/a/a/a/a/a/a/a/a/a/a/a/a/a/a/a/" ++ n⟩

/-- Sources with a link to a directory, in which there is a link to another one. -/
def tangled : Tree :=
  Tree.placeAll [] [.link ⟨"/a"⟩ ⟨"."⟩, .link ⟨"/s/l"⟩ (detour "d"), .link ⟨"/d/l"⟩ (detour "e"),
    .file ⟨"/e/x"⟩ [49] 0o644] Tree.empty

set_option maxRecDepth 100000 in
/-- **Not every link to a directory is followed.** The second link leads to a directory that the
walk is not in, and it is not left out; but the way there through both is too long to be looked up.
-/
theorem many_links_are_not_followed :
    ∃ t', tangled.Leads [] ⟨"/s"⟩ ["l"] ["d"] .dir ∧
      tangled.get? ["d", "l"] = some (.link (detour "e")) ∧
      tangled.stat [] ⟨"/d/l"⟩ = .ok .dir ∧
      (tangled.resolve [] ⟨"/d/l"⟩).map Tree.Position.loc = .ok ["e"] ∧
      ¬ Walk.OnPath tangled [] ⟨"/s"⟩ ["l"] ["e"] ∧
      ¬ LeftOut ⟨"/s"⟩ ⟨"/o.zip"⟩ ⟨"/none"⟩ ["l", "l"] .dir ∧
      (∀ v ∈ (archiveWalk tangled [] ⟨"/s"⟩ ⟨"/o.zip"⟩ ⟨"/none"⟩).visits, v.loc ≠ ["o.zip"]) ∧
      (writeArchive [] ⟨"/s"⟩ ⟨"/o.zip"⟩ ⟨"/none"⟩).exec tangled =
        (.error (.walk ⟨"/s/l/l"⟩
          "IO error for operation on /s/l/l: Too many levels of symbolic links (os error 40)"),
          t') ∧
      t'.get? ["o.zip"] = some (.file (Zip.encode [⟨"l/", .directory⟩]) 0o644) := by
  have hsource : tangled.Leads [] ⟨"/s"⟩ [] ["s"] .dir :=
    ⟨⟨["s"], 40⟩, ⟨["s"], 40⟩, by decide +kernel, by decide +kernel, rfl, by decide +kernel⟩
  have hlink : tangled.Leads [] ⟨"/s"⟩ ["l"] ["d"] .dir :=
    ⟨⟨["s"], 40⟩, ⟨["d"], 19⟩, by decide +kernel, by decide +kernel, rfl, by decide +kernel⟩
  have hrun : ((writeArchive [] ⟨"/s"⟩ ⟨"/o.zip"⟩ ⟨"/none"⟩).exec tangled).1 =
      .error (.walk ⟨"/s/l/l"⟩
        "IO error for operation on /s/l/l: Too many levels of symbolic links (os error 40)") := by
    decide +kernel
  have hzip : ((writeArchive [] ⟨"/s"⟩ ⟨"/o.zip"⟩ ⟨"/none"⟩).exec tangled).2.get? ["o.zip"] =
      some (.file (Zip.encode [⟨"l/", .directory⟩]) 0o644) := by
    decide +kernel
  generalize (writeArchive [] ⟨"/s"⟩ ⟨"/o.zip"⟩ ⟨"/none"⟩).exec tangled = after at hrun hzip ⊢
  obtain ⟨result, t'⟩ := after
  obtain rfl : result = _ := hrun
  refine ⟨t', hlink, by decide +kernel, by decide +kernel, by decide +kernel, ?_, ?_,
    by decide +kernel, rfl, hzip⟩
  · rintro ⟨q, hq, hleads⟩
    rcases List.prefix_cons_iff.mp hq with rfl | ⟨rest, rfl, hrest⟩
    · exact absurd (hleads.unique hsource).1 (by decide)
    · rw [List.prefix_nil.mp hrest] at hleads
      exact absurd (hleads.unique hlink).1 (by decide)
  · rw [← isSkipped_iff (by simp)]
    decide +kernel

end Zipship.Package
