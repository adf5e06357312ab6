import Zipship.Proofs.Package.Obstacle
import Zipship.Proofs.Tree.Order

/-!
# Where a walk ends early

A walk does not get past a link that is an obstacle, nor past a path that the operating system
refuses, nor does it start at a source that leads nowhere: all that is a `Barrier`. The first
barrier in the order of the names ends a walk, and nothing else does (`fault_ofSource_some`,
`fault_ofSource_none`, `exists_fault`). Until then the walk lists what it would list if there were
no barrier (`visits_ofSource_of_fault`).
-/

namespace Zipship.Package.Walk

variable {t : Tree} {cwd dir loc : Loc} {source : Path} {skip : List Name → Node → Bool}
  {fuel : Nat} {above : Ancestors} {names q : List Name} {name : Name} {node : Node}
  {fault : Fault} {v : Visit} {w : Walk}

/-- Names at which a walk ends. -/
inductive Barrier (t : Tree) (cwd : Loc) (source : Path) (skip : List Name → Node → Bool) :
    List Name → Prop
  /-- The source leads nowhere. -/
  | source (h : ∀ pos, t.resolve cwd source ≠ .ok pos) : Barrier t cwd source skip []
  | link {names : List Name} {name : Name} (h : Obstacle t cwd source skip names name) :
      Barrier t cwd source skip (names ++ [name])
  /-- The walk has to list something under a path that the operating system refuses. -/
  | refused {names : List Name} {loc : Loc} {node : Node}
      (hdue : Due t cwd source skip [] names loc node)
      (hcheck : Tree.checkPath (source.descend names) ≠ .ok ⟨⟩) : Barrier t cwd source skip names

/-! ## Walks one after another, up to a fault -/

theorem chain_fault {ws : List Walk} (h : (chain ws).fault = some fault) :
    ∃ pre w post, ws = pre ++ w :: post ∧ w.fault = some fault ∧
      (chain ws).visits = pre.flatMap visits ++ w.visits := by
  induction ws with
  | nil => cases h
  | cons w ws ih =>
    rw [chain] at h ⊢
    cases hw : w.fault with
    | some found =>
      rw [followedBy_of_fault hw] at h ⊢
      exact ⟨[], w, ws, rfl, hw.trans h, rfl⟩
    | none =>
      unfold followedBy at h ⊢
      rw [hw] at h ⊢
      obtain ⟨pre, x, post, rfl, hx, hvisits⟩ := ih h
      exact ⟨w :: pre, x, post, rfl, hx, by simp [hvisits]⟩

/-- A chain comes to a walk in it, unless one before that ends it. -/
theorem chain_comes_to (pre : List Walk) (w : Walk) (post : List Walk) :
    (∃ x ∈ pre, ∃ fault, x.fault = some fault ∧ (chain (pre ++ w :: post)).fault = some fault) ∨
      w.visits ⊆ (chain (pre ++ w :: post)).visits ∧
        ∀ fault, w.fault = some fault → (chain (pre ++ w :: post)).fault = some fault := by
  induction pre with
  | nil =>
    right
    rw [List.nil_append, chain]
    unfold followedBy
    cases hw : w.fault with
    | some fault => exact ⟨List.Subset.refl _, fun f hf => hw.trans hf⟩
    | none => exact ⟨List.subset_append_left _ _, by simp⟩
  | cons x pre ih =>
    rw [List.cons_append, chain]
    unfold followedBy
    cases hx : x.fault with
    | some fault => exact Or.inl ⟨x, List.mem_cons_self, fault, hx, hx⟩
    | none =>
      rcases ih with ⟨y, hy, fault, hfault, hend⟩ | ⟨hsub, hend⟩
      · exact Or.inl ⟨y, List.mem_cons_of_mem _ hy, fault, hfault, hend⟩
      · exact Or.inr ⟨List.Subset.trans hsub (List.subset_append_right _ _), hend⟩

/-- The step of `isPrefix_of_fault`. -/
theorem isPrefix_of_fault_step (hname : name ∈ t.sortedChildren dir)
    (ih : ∀ loc, (ofDir t cwd source skip fuel above (names ++ [name]) loc).fault = some fault →
      names ++ [name] <+: fault.names)
    (h : (walkAt t cwd source skip fuel above names dir name).fault = some fault) :
    names ++ [name] <+: fault.names := by
  have hout := walkAt_outcome t cwd source skip fuel above names dir name
  generalize walkAt t cwd source skip fuel above names dir name = w at h hout
  cases hout with
  | blocked hlook =>
    cases h
    exact (look_error hname hlook).1 ▸ List.prefix_rfl
  | refused _ _ hfault =>
    cases h
    exact (visit_fault hfault).2.1 ▸ List.prefix_rfl
  | dir => exact ih _ h
  | left | file => cases h

theorem isPrefix_of_fault (h : (ofDir t cwd source skip fuel above names dir).fault = some fault) :
    ∃ name ∈ t.sortedChildren dir, names ++ [name] <+: fault.names := by
  induction fuel generalizing above names dir with
  | zero => cases h
  | succ fuel ih =>
    rw [ofDir_succ] at h
    obtain ⟨pre, w, post, hws, hfault, -⟩ := chain_fault h
    obtain ⟨name, hname, rfl⟩ :=
      List.mem_map.mp (hws ▸ List.mem_append_right pre List.mem_cons_self)
    refine ⟨name, hname, isPrefix_of_fault_step hname (fun loc hinner => ?_) hfault⟩
    obtain ⟨m, -, hm⟩ := ih hinner
    exact (List.prefix_append _ _).trans hm

/-- What ends the walk of an entry is at the entry, or below it. -/
theorem isPrefix_of_fault_walkAt (hname : name ∈ t.sortedChildren dir)
    (h : (walkAt t cwd source skip fuel above names dir name).fault = some fault) :
    names ++ [name] <+: fault.names := by
  refine isPrefix_of_fault_step hname (fun loc hinner => ?_) h
  obtain ⟨m, -, hm⟩ := isPrefix_of_fault hinner
  exact (List.prefix_append _ _).trans hm

/-- The walk of a directory comes to an entry, if it does not end at names that precede what is
below that. -/
theorem ofDir_comes_to (hname : name ∈ t.sortedChildren dir) (hq : names ++ [name] <+: q)
    (hmet : ∀ fault, (ofDir t cwd source skip (fuel + 1) above names dir).fault = some fault →
      ¬ Tree.Precedes fault.names q) :
    (walkAt t cwd source skip fuel ((names, dir) :: above) names dir name).visits ⊆
        (ofDir t cwd source skip (fuel + 1) above names dir).visits ∧
      ∀ fault, (walkAt t cwd source skip fuel ((names, dir) :: above) names dir name).fault =
          some fault →
        (ofDir t cwd source skip (fuel + 1) above names dir).fault = some fault := by
  rw [ofDir_succ] at hmet ⊢
  obtain ⟨pre, post, hchildren⟩ := List.append_of_mem hname
  have hsorted := Tree.sortedChildren_pairwise t dir
  have hpre : ∀ m ∈ pre, m ∈ t.sortedChildren dir := fun m hm => by simp [hchildren, hm]
  rw [hchildren] at hmet hsorted ⊢
  rw [List.map_append, List.map_cons] at hmet ⊢
  refine (chain_comes_to _ _ _).resolve_left ?_
  rintro ⟨x, hx, fault, hfault, hend⟩
  obtain ⟨m, hm, rfl⟩ := List.mem_map.mp hx
  have hlt : m < name := (List.pairwise_append.mp hsorted).2.2 m hm name List.mem_cons_self
  exact hmet fault hend (Tree.precedes_of_lt hlt (isPrefix_of_fault_walkAt (hpre m hm) hfault) hq)

/-! ## What ends a walk -/

/-- Where the names end there is the entry at `loc` itself, and not a link to it. -/
def Stands (t : Tree) (cwd : Loc) (source : Path) (names : List Name) (loc : Loc) : Prop :=
  ∃ above name dir, names = above ++ [name] ∧ t.Leads cwd source above dir .dir ∧
    loc = dir ++ [name]

/-- How the walk `w` was ended by a fault: at a link that cannot be followed, behind all that was
listed, or at something that cannot be opened, which is listed last. -/
inductive EndsAt (t : Tree) (cwd : Loc) (source : Path) (skip : List Name → Node → Bool)
    (w : Walk) (fault : Fault) : Prop
  | obstacle {names : List Name} {name : Name} (h : Obstacle t cwd source skip names name)
      (hnames : fault.names = names ++ [name]) (hkind : ∀ names e, fault ≠ .unopened names e)
      (hbefore : ∀ v ∈ w.visits, Tree.Precedes v.names fault.names)
  | refused {loc : Loc} {node shown : Node} {earlier : List Visit}
      (hdue : Due t cwd source skip [] fault.names loc node)
      (hstands : Stands t cwd source fault.names loc)
      (hcheck : Tree.checkPath (source.descend fault.names) ≠ .ok ⟨⟩)
      (hkind : node = .dir ∨ ∃ e, fault = .unopened fault.names e)
      (hshown : node = .dir → shown = .dir)
      (hvisits : w.visits = earlier ++ [⟨fault.names, loc, shown⟩])
      (hbefore : ∀ v ∈ earlier, Tree.Precedes v.names fault.names)

/-- What was listed before does not change how a walk ended. -/
theorem EndsAt.behind {w' : Walk} (earlier : List Visit) (h : EndsAt t cwd source skip w fault)
    (hvisits : w'.visits = earlier ++ w.visits)
    (hearlier : ∀ v ∈ earlier, Tree.Precedes v.names fault.names) :
    EndsAt t cwd source skip w' fault := by
  cases h with
  | obstacle h hnames hkind hbefore =>
    refine .obstacle h hnames hkind fun v hv => ?_
    rw [hvisits] at hv
    exact (List.mem_append.mp hv).elim (hearlier v) (hbefore v)
  | refused hdue hstands hcheck hkind hshown hlast hbefore =>
    refine .refused hdue hstands hcheck hkind hshown (hvisits.trans ?_) fun v hv =>
      (List.mem_append.mp hv).elim (hearlier v) (hbefore v)
    rw [hlast, List.append_assoc]

/-- The step of `endsAt_of_fault`. -/
theorem endsAt_walkAt (h : Within t cwd source skip above names dir)
    (hname : name ∈ t.sortedChildren dir)
    (ih : ∀ loc, Within t cwd source skip ((names, dir) :: above) (names ++ [name]) loc →
      (ofDir t cwd source skip fuel ((names, dir) :: above) (names ++ [name]) loc).fault =
        some fault →
      EndsAt t cwd source skip
        (ofDir t cwd source skip fuel ((names, dir) :: above) (names ++ [name]) loc) fault)
    (hfault : (walkAt t cwd source skip fuel ((names, dir) :: above) names dir name).fault =
      some fault) :
    EndsAt t cwd source skip
      (walkAt t cwd source skip fuel ((names, dir) :: above) names dir name) fault := by
  have hout := walkAt_outcome t cwd source skip fuel ((names, dir) :: above) names dir name
  generalize walkAt t cwd source skip fuel ((names, dir) :: above) names dir name = w
    at hfault hout ⊢
  cases hout with
  | blocked hlook =>
    cases hfault
    obtain ⟨hnames, hkind, -⟩ := look_error hname hlook
    exact .obstacle (h.obstacle_of_look hname hlook) hnames hkind (by simp)
  | @refused loc node _ hlook hskip hvisit =>
    cases hfault
    obtain ⟨hcheck, hnames, hkind, shown, hvisits, hshown⟩ := visit_fault hvisit
    have hdue := h.due_of_look hlook hskip
    have hstands : Stands t cwd source (names ++ [name]) loc := by
      obtain ⟨-, ⟨hloc, -⟩ | ⟨pos, hr, -⟩⟩ := look_cases hlook
      · exact ⟨names, name, dir, rfl, h.descent.leads, hloc⟩
      · exact absurd (Tree.resolve_ok hr).1 hcheck
    rw [← hnames] at hcheck hkind hdue hstands
    have hlast : (visit source (names ++ [name]) loc node).visits =
        [] ++ [⟨fault.names, loc, shown⟩] := by
      rw [hnames]
      exact hvisits
    exact .refused hdue hstands hcheck hkind hshown hlast (by simp)
  | @dir loc hlook hskip hcheck =>
    refine (ih loc (h.enter hlook hskip) hfault).behind [⟨names ++ [name], loc, .dir⟩] rfl
      fun v hv => ?_
    obtain ⟨m, -, hm⟩ := isPrefix_of_fault hfault
    rw [List.mem_singleton.mp hv]
    refine Tree.precedes_of_isPrefix ((List.prefix_append _ _).trans hm) fun he => ?_
    have hlen := hm.length_le
    rw [← he, List.length_append, List.length_singleton] at hlen
    exact Nat.not_succ_le_self _ hlen
  | left | file => cases hfault

/-- **How a walk ends early.** -/
theorem endsAt_of_fault (h : Within t cwd source skip above names dir)
    (hfault : (ofDir t cwd source skip fuel above names dir).fault = some fault) :
    EndsAt t cwd source skip (ofDir t cwd source skip fuel above names dir) fault := by
  induction fuel generalizing above names dir with
  | zero => cases hfault
  | succ fuel ih =>
    rw [ofDir_succ] at hfault ⊢
    obtain ⟨pre, w, post, hws, hend, hvisits⟩ := chain_fault hfault
    obtain ⟨front, rest, hchildren, rfl, hrest⟩ := List.map_eq_append_iff.mp hws
    obtain ⟨name, behind, rfl, rfl, rfl⟩ := List.map_eq_cons_iff.mp hrest
    have hname : name ∈ t.sortedChildren dir := by simp [hchildren]
    refine (endsAt_walkAt h hname (fun loc hin => ih hin) hend).behind _ hvisits fun v hv => ?_
    rw [List.flatMap_map, List.mem_flatMap] at hv
    obtain ⟨m, hm, hv⟩ := hv
    have hsorted := Tree.sortedChildren_pairwise t dir
    rw [hchildren] at hsorted
    have hlt : m < name := (List.pairwise_append.mp hsorted).2.2 m hm name List.mem_cons_self
    exact Tree.precedes_of_lt hlt (listed_of_mem_walkAt (fun loc v => listed_of_mem_ofDir) hv).1
      (isPrefix_of_fault_walkAt hname hend)

/-! ## What is listed until then -/

/-- What a walk lists is to be listed, and is listed as it is unless its path is refused. -/
theorem due_of_mem (h : Within t cwd source skip above names dir)
    (hv : v ∈ (ofDir t cwd source skip fuel above names dir).visits) :
    ∃ node, Due t cwd source skip [] v.names v.loc node ∧
      (v.node = node ∨ Tree.checkPath (source.descend v.names) ≠ .ok ⟨⟩) := by
  induction fuel generalizing above names dir with
  | zero => cases hv
  | succ fuel ih =>
    rw [ofDir_succ] at hv
    have hmem := (visits_chain _).subset hv
    rw [List.flatMap_map, List.mem_flatMap] at hmem
    obtain ⟨name, -, hmem⟩ := hmem
    have hout := walkAt_outcome t cwd source skip fuel ((names, dir) :: above) names dir name
    generalize walkAt t cwd source skip fuel ((names, dir) :: above) names dir name = w
      at hmem hout
    cases hout with
    | refused hlook hskip hfault =>
      obtain ⟨hcheck, -, -, shown, hvisits, -⟩ := visit_fault hfault
      rw [hvisits] at hmem
      obtain rfl := List.mem_singleton.mp hmem
      exact ⟨_, h.due_of_look hlook hskip, Or.inr hcheck⟩
    | file hlook hskip =>
      obtain rfl := List.mem_singleton.mp hmem
      exact ⟨_, h.due_of_look hlook hskip, Or.inl rfl⟩
    | dir hlook hskip =>
      rcases List.mem_cons.mp hmem with rfl | hmem
      · exact ⟨_, h.due_of_look hlook hskip, Or.inl rfl⟩
      · exact ih (h.enter hlook hskip) hmem
    | blocked | left => cases hmem

/-- **A walk comes to everything in open directories**, up to where it ends. -/
theorem walk_comes_to (rest : List Name) (h : Within t cwd source skip above names dir)
    (hfuel : depthBound t ≤ names.length + fuel)
    (hvalid : ∀ n ∈ names ++ rest, n.valid = true) (hopen : Open t cwd source skip (names ++ rest))
    (hleads : t.Leads cwd source (names ++ rest) loc .dir) (hname : name ∈ t.sortedChildren loc)
    (hmet : ∀ fault, (ofDir t cwd source skip fuel above names dir).fault = some fault →
      ¬ Tree.Precedes fault.names (names ++ rest ++ [name])) :
    ∃ fuel' above', Within t cwd source skip above' (names ++ rest) loc ∧
      (walkAt t cwd source skip fuel' ((names ++ rest, loc) :: above') (names ++ rest) loc
          name).visits ⊆ (ofDir t cwd source skip fuel above names dir).visits ∧
      ∀ fault, (walkAt t cwd source skip fuel' ((names ++ rest, loc) :: above') (names ++ rest) loc
          name).fault = some fault →
        (ofDir t cwd source skip fuel above names dir).fault = some fault := by
  induction rest generalizing fuel above names dir with
  | nil =>
    rw [List.append_nil] at hleads hmet ⊢
    obtain ⟨rfl, -⟩ := hleads.unique h.descent.leads
    cases fuel with
    | zero => exact absurd h.descent.length_lt (Nat.not_lt.mpr hfuel)
    | succ fuel => exact ⟨fuel, above, h, ofDir_comes_to hname List.prefix_rfl hmet⟩
  | cons n rest ih =>
    cases fuel with
    | zero => exact absurd h.descent.length_lt (Nat.not_lt.mpr hfuel)
    | succ fuel =>
      rw [List.append_cons names n rest] at hvalid hopen hleads hmet ⊢
      have hfront : names ++ [n] <+: names ++ [n] ++ rest := List.prefix_append _ _
      have hbelow : names ++ [n] <+: names ++ [n] ++ rest ++ [name] :=
        hfront.trans (List.prefix_append _ _)
      obtain ⟨next, hnext⟩ : ∃ next, t.Leads cwd source (names ++ [n]) next .dir := by
        by_cases hrest : rest = []
        · exact ⟨loc, by simpa [hrest] using hleads⟩
        · exact hleads.dir_of_isPrefix hfront (by simpa using hrest) hvalid
      have hn : n ∈ t.sortedChildren dir := by
        obtain ⟨above, habove, hsome⟩ := hnext.parent (hvalid n (by simp))
        rw [(habove.unique h.descent.leads).1] at hsome
        exact Tree.mem_sortedChildren.mpr hsome
      obtain ⟨hsub, hend⟩ := ofDir_comes_to hn hbelow hmet
      -- had the walk ended at the directory itself, it would not come to what is in it
      have hgoes (fault : Fault) (hnames : fault.names = names ++ [n]) :
          (walkAt t cwd source skip fuel ((names, dir) :: above) names dir n).fault ≠
            some fault := fun hfault =>
        hmet fault (hend fault hfault) (by
          rw [hnames]
          exact Tree.precedes_of_isPrefix hbelow (by simp))
      have hout := walkAt_outcome t cwd source skip fuel ((names, dir) :: above) names dir n
      generalize walkAt t cwd source skip fuel ((names, dir) :: above) names dir n = w
        at hsub hend hgoes hout
      cases hout with
      | blocked hlook => exact absurd rfl (hgoes _ (look_error hn hlook).1)
      | refused _ _ hfault => exact absurd rfl (hgoes _ (visit_fault hfault).2.1)
      | left hlook hskip =>
        obtain ⟨rfl, rfl⟩ := (h.leads_of_look hlook).unique hnext
        rw [hopen _ _ _ (by simp) hfront hnext] at hskip
        cases hskip
      | file hlook _ _ hnode => exact absurd ((h.leads_of_look hlook).unique hnext).2 hnode
      | dir hlook hskip =>
        obtain ⟨rfl, -⟩ := (h.leads_of_look hlook).unique hnext
        obtain ⟨fuel', above', hwithin, hvisits, hfaults⟩ :=
          ih (h.enter hlook hskip)
            (by rw [List.length_append, List.length_singleton]; omega) hvalid hopen hleads
            fun fault hfault => hmet fault (hend fault hfault)
        exact ⟨fuel', above', hwithin,
          List.Subset.trans hvisits (List.Subset.trans (List.subset_cons_self _ _) hsub),
          fun fault hfault => hend fault (hfaults fault hfault)⟩

section Start

variable (hstart : t.Leads cwd source [] dir .dir)

include hstart

theorem within_start : Within t cwd source skip [] [] dir := ⟨.start hstart, .nil⟩

/-- What is to be listed is listed by a walk that comes to it, unless the walk ends there. -/
theorem due_outcome (hdue : Due t cwd source skip [] q loc node)
    (hmet : ∀ fault, (ofDir t cwd source skip (depthBound t) [] [] dir).fault = some fault →
      ¬ Tree.Precedes fault.names q) :
    Tree.checkPath (source.descend q) = .ok ⟨⟩ ∧
        ⟨q, loc, node⟩ ∈ (ofDir t cwd source skip (depthBound t) [] [] dir).visits ∨
      Barrier t cwd source skip q ∧ ∃ fault,
        (ofDir t cwd source skip (depthBound t) [] [] dir).fault = some fault ∧
          fault.names = q := by
  obtain ⟨names, name, rfl⟩ : ∃ names name, q = names ++ [name] :=
    ⟨_, _, (List.dropLast_concat_getLast hdue.ne.symm).symm⟩
  have hvalid : ∀ n ∈ names, n.valid = true := fun n hn => hdue.valid n (by simp [hn])
  obtain ⟨l, hl, hsome⟩ := hdue.leads.parent (hdue.valid name (by simp))
  have hname : name ∈ t.sortedChildren l := Tree.mem_sortedChildren.mpr hsome
  obtain ⟨fuel, above, hwithin, hsub, hend⟩ :=
    walk_comes_to names (within_start hstart) (by simp) hvalid
      (hdue.isOpen (List.prefix_append _ _)) hl hname hmet
  rw [List.nil_append] at hwithin hsub hend
  have hout := walkAt_outcome t cwd source skip fuel ((names, l) :: above) names l name
  generalize walkAt t cwd source skip fuel ((names, l) :: above) names l name = w
    at hsub hend hout
  cases hout with
  | blocked hlook =>
    exact Or.inr ⟨.link (hwithin.obstacle_of_look hname hlook), _, hend _ rfl,
      (look_error hname hlook).1⟩
  | refused hlook _ hfault =>
    obtain ⟨hcheck, hnames, -⟩ := visit_fault hfault
    exact Or.inr ⟨.refused hdue hcheck, _, hend _ rfl, hnames⟩
  | left hlook hskip =>
    obtain ⟨rfl, rfl⟩ := (hwithin.leads_of_look hlook).unique hdue.leads
    rw [hdue.free _ _ _ List.nil_prefix hdue.ne List.prefix_rfl hdue.leads] at hskip
    cases hskip
  | file hlook _ hcheck =>
    obtain ⟨rfl, rfl⟩ := (hwithin.leads_of_look hlook).unique hdue.leads
    exact Or.inl ⟨hcheck, hsub List.mem_cons_self⟩
  | dir hlook _ hcheck =>
    obtain ⟨rfl, rfl⟩ := (hwithin.leads_of_look hlook).unique hdue.leads
    exact Or.inl ⟨hcheck, hsub List.mem_cons_self⟩

/-- A walk that comes to an obstacle ends with what is wrong with the link. -/
theorem Obstacle.exists_fault (h : Obstacle t cwd source skip names name)
    (hmet : ∀ fault, (ofDir t cwd source skip (depthBound t) [] [] dir).fault = some fault →
      ¬ Tree.Precedes fault.names (names ++ [name])) :
    ∃ above l fault, Descent t cwd source above names l ∧ name ∈ t.sortedChildren l ∧
      look t cwd source ((names, l) :: above) l (names ++ [name]) name = .error fault ∧
      (ofDir t cwd source skip (depthBound t) [] [] dir).fault = some fault := by
  obtain ⟨l, target, hleads, hlink⟩ := h.isLink
  have hname : name ∈ t.sortedChildren l := Tree.mem_sortedChildren.mpr (by simp [hlink])
  obtain ⟨fuel, above, hwithin, -, hend⟩ :=
    walk_comes_to names (within_start hstart) (by simp) h.valid h.isOpen hleads hname hmet
  rw [List.nil_append] at hwithin hend
  obtain ⟨fault, hlook⟩ := h.look_error hwithin.descent
  refine ⟨above, l, fault, hwithin.descent, hname, hlook, hend fault ?_⟩
  unfold walkAt
  rw [hlook]

/-- A walk that comes to a barrier ends there. -/
theorem Barrier.exists_fault (h : Barrier t cwd source skip q)
    (hmet : ∀ fault, (ofDir t cwd source skip (depthBound t) [] [] dir).fault = some fault →
      ¬ Tree.Precedes fault.names q) :
    ∃ fault, (ofDir t cwd source skip (depthBound t) [] [] dir).fault = some fault ∧
      fault.names = q := by
  cases h with
  | source h =>
    obtain ⟨start, -, hs, -⟩ := hstart
    exact absurd hs (h start)
  | link h =>
    obtain ⟨above, l, fault, -, hname, hlook, hfault⟩ := h.exists_fault hstart hmet
    exact ⟨fault, hfault, (look_error hname hlook).1⟩
  | refused hdue hcheck =>
    rcases due_outcome hstart hdue hmet with ⟨hok, -⟩ | ⟨-, hfault⟩
    · exact absurd hok hcheck
    · exact hfault

end Start

/-! ## The walk from a source -/

/-- The walk from a source that leads to no directory, or to one. -/
theorem ofSource_cases (t : Tree) (cwd : Loc) (source : Path) (skip : List Name → Node → Bool) :
    (∃ dir, t.Leads cwd source [] dir .dir ∧
        ofSource t cwd source skip = ofDir t cwd source skip (depthBound t) [] [] dir) ∨
      (∀ names dir, ¬ t.Leads cwd source names dir .dir) ∧ ∃ fault,
        ofSource t cwd source skip = ⟨[], fault⟩ ∧ ∀ f, fault = some f ↔
          ∃ e, t.resolve cwd source = .error e ∧ f = .unreachable [] e := by
  unfold ofSource
  cases hr : t.resolve cwd source with
  | error e =>
    refine Or.inr ⟨?_, _, rfl, by simp [eq_comm]⟩
    rintro names dir ⟨start, -, hs, -⟩
    rw [hr] at hs
    cases hs
  | ok pos =>
    by_cases hdir : t.get? pos.loc = some .dir
    · exact Or.inl ⟨pos.loc, ⟨pos, pos, hr, Tree.follow_nil, rfl, hdir⟩, if_pos hdir⟩
    · refine Or.inr ⟨?_, none, if_neg hdir, by simp⟩
      rintro names dir ⟨start, stop, hs, hf, rfl, hget⟩
      rw [hr] at hs
      cases hs
      cases names with
      | nil =>
        rw [Tree.follow_nil] at hf
        cases hf
        exact hdir hget
      | cons n names => exact hdir (Tree.dir_of_follow_cons hf)

/-- In front of nothing that is to be listed there is only the source. -/
theorem Barrier.cases_of_no_dir (h : Barrier t cwd source skip q)
    (hnone : ∀ names dir, ¬ t.Leads cwd source names dir .dir) :
    q = [] ∧ ∀ pos, t.resolve cwd source ≠ .ok pos := by
  cases h with
  | source h => exact ⟨rfl, h⟩
  | link h =>
    obtain ⟨dir, target, hleads, -⟩ := h.isLink
    exact absurd hleads (hnone _ dir)
  | refused hdue =>
    obtain ⟨l, hl⟩ := hdue.leads.dir_of_isPrefix List.nil_prefix hdue.ne hdue.valid
    exact absurd hl (hnone [] l)

/-- A walk that comes to its end meets no barrier. -/
theorem fault_ofSource_none (h : (ofSource t cwd source skip).fault = none) :
    ¬ Barrier t cwd source skip q := by
  intro hq
  obtain ⟨dir, hstart, heq⟩ | ⟨hnone, fault, heq, hfault⟩ := ofSource_cases t cwd source skip
  · rw [heq] at h
    obtain ⟨fault, hfault, -⟩ := hq.exists_fault hstart (by simp [h])
    rw [h] at hfault
    cases hfault
  · obtain ⟨-, hbroken⟩ := hq.cases_of_no_dir hnone
    cases hr : t.resolve cwd source with
    | ok pos => exact hbroken pos hr
    | error e =>
      rw [heq] at h
      rw [(hfault _).mpr ⟨e, hr, rfl⟩] at h
      cases h

/-- **What ends a walk early is a barrier, and the first one.** -/
theorem fault_ofSource_some (h : (ofSource t cwd source skip).fault = some fault) :
    Barrier t cwd source skip fault.names ∧
      ∀ q, Barrier t cwd source skip q → ¬ Tree.Precedes q fault.names := by
  obtain ⟨dir, hstart, heq⟩ | ⟨hnone, found, heq, hfault⟩ := ofSource_cases t cwd source skip
  · rw [heq] at h
    constructor
    · cases endsAt_of_fault (within_start hstart) h with
      | obstacle h hnames => exact hnames ▸ .link h
      | refused hdue _ hcheck => exact .refused hdue hcheck
    · intro q hq hbefore
      obtain ⟨first, hfirst, rfl⟩ := hq.exists_fault hstart fun f hf => by
        rw [h] at hf
        cases hf
        exact hbefore.asymm
      rw [h] at hfirst
      cases hfirst
      exact Tree.Precedes.irrefl _ hbefore
  · rw [heq] at h
    obtain ⟨e, hr, rfl⟩ := (hfault _).mp h
    refine ⟨.source (by simp [hr]), fun q _ hbefore => ?_⟩
    exact Tree.not_precedes_of_isPrefix List.nil_prefix hbefore

/-- The first barrier ends the walk. -/
theorem exists_fault (h : Barrier t cwd source skip q)
    (hfirst : ∀ p, Barrier t cwd source skip p → ¬ Tree.Precedes p q) :
    ∃ fault, (ofSource t cwd source skip).fault = some fault ∧ fault.names = q := by
  cases hfault : (ofSource t cwd source skip).fault with
  | none => exact absurd h (fault_ofSource_none hfault)
  | some fault =>
    obtain ⟨hbarrier, hnone⟩ := fault_ofSource_some hfault
    refine ⟨fault, rfl, ?_⟩
    rcases Tree.precedes_trichotomy fault.names q with hlt | heq | hgt
    · exact absurd hlt (hfirst _ hbarrier)
    · exact heq
    · exact absurd hgt (hnone q h)

/-- What was listed last when a walk ended: nothing if it ended at a link or at the source, or else
what could not be opened. -/
inductive LastListed (t : Tree) (cwd : Loc) (source : Path) (skip : List Name → Node → Bool)
    (fault : Fault) : List Visit → Prop
  | source (hnames : fault.names = []) (hkind : ∀ names e, fault ≠ .unopened names e)
      (h : ∀ pos, t.resolve cwd source ≠ .ok pos) : LastListed t cwd source skip fault []
  | link {names : List Name} {name : Name} (hnames : fault.names = names ++ [name])
      (hkind : ∀ names e, fault ≠ .unopened names e)
      (h : Obstacle t cwd source skip names name) : LastListed t cwd source skip fault []
  | refused {loc : Loc} {node shown : Node}
      (hkind : node = .dir ∨ ∃ e, fault = .unopened fault.names e)
      (hshown : node = .dir → shown = .dir) (hdue : Due t cwd source skip [] fault.names loc node)
      (hstands : Stands t cwd source fault.names loc)
      (hcheck : Tree.checkPath (source.descend fault.names) ≠ .ok ⟨⟩) :
      LastListed t cwd source skip fault [⟨fault.names, loc, shown⟩]

/-- **What a walk listed that ended early**: what is to be listed and precedes the barrier, and
behind that what could not be opened, if that was the barrier. -/
theorem visits_ofSource_of_fault (h : (ofSource t cwd source skip).fault = some fault) :
    ∃ earlier last, (ofSource t cwd source skip).visits = earlier ++ last ∧
      (∀ v, v ∈ earlier ↔
        Due t cwd source skip [] v.names v.loc v.node ∧ Tree.Precedes v.names fault.names) ∧
      LastListed t cwd source skip fault last := by
  obtain ⟨hbarrier, hfirst⟩ := fault_ofSource_some h
  obtain ⟨dir, hstart, heq⟩ | ⟨hnone, found, heq, hfault⟩ := ofSource_cases t cwd source skip
  · rw [heq] at h ⊢
    have hlisted {v : Visit} {earlier last : List Visit}
        (hvisits : (ofDir t cwd source skip (depthBound t) [] [] dir).visits = earlier ++ last)
        (hbefore : ∀ v ∈ earlier, Tree.Precedes v.names fault.names)
        (hlast : ∀ v ∈ last, v.names = fault.names) : v ∈ earlier ↔
        Due t cwd source skip [] v.names v.loc v.node ∧ Tree.Precedes v.names fault.names := by
      constructor
      · intro hv
        refine ⟨?_, hbefore v hv⟩
        have hmem : v ∈ (ofDir t cwd source skip (depthBound t) [] [] dir).visits :=
          hvisits ▸ List.mem_append_left last hv
        obtain ⟨node, hdue, hnode | hcheck⟩ := due_of_mem (within_start hstart) hmem
        · exact hnode ▸ hdue
        · exact absurd (hbefore v hv) (hfirst _ (.refused hdue hcheck))
      · rintro ⟨hdue, hprecedes⟩
        rcases due_outcome hstart hdue fun f hf => by
            rw [h] at hf
            cases hf
            exact hprecedes.asymm with ⟨-, hv⟩ | ⟨hbarrier, -⟩
        · rw [hvisits] at hv
          refine (List.mem_append.mp hv).resolve_right fun hv => ?_
          exact hprecedes.ne (hlast _ hv)
        · exact absurd hprecedes (hfirst _ hbarrier)
    cases endsAt_of_fault (within_start hstart) h with
    | obstacle hobstacle hnames hkind hbefore =>
      have hvisits := (List.append_nil
        (ofDir t cwd source skip (depthBound t) [] [] dir).visits).symm
      exact ⟨_, [], hvisits, fun v => hlisted hvisits hbefore (by simp),
        .link hnames hkind hobstacle⟩
    | refused hdue hstands hcheck hkind hshown hvisits hbefore =>
      exact ⟨_, _, hvisits, fun v => hlisted hvisits hbefore (by simp),
        .refused hkind hshown hdue hstands hcheck⟩
  · rw [heq] at h ⊢
    obtain ⟨e, hr, rfl⟩ := (hfault _).mp h
    refine ⟨[], [], rfl, fun v => iff_of_false (by simp) ?_, .source rfl (by simp) (by simp [hr])⟩
    rintro ⟨-, hprecedes⟩
    exact Tree.not_precedes_of_isPrefix List.nil_prefix hprecedes

/-- Where the operating system accepts the paths that a walk lists, only a link ends it early. -/
theorem fault_ofSource (hsource : t.stat cwd source = .ok .dir)
    (hcheck : ∀ v ∈ (ofSource t cwd source skip).visits,
      Tree.checkPath (source.descend v.names) = .ok ⟨⟩)
    (h : (ofSource t cwd source skip).fault = some fault) :
    (∀ names e, fault ≠ .unopened names e) ∧ ∃ names name, fault.names = names ++ [name] ∧
      Obstacle t cwd source skip names name := by
  obtain ⟨pos, hr, -⟩ := Tree.stat_eq_ok.mp hsource
  obtain ⟨earlier, last, hvisits, -, hlast⟩ := visits_ofSource_of_fault h
  cases hlast with
  | source _ _ hbroken => exact absurd hr (hbroken pos)
  | link hnames hkind hobstacle => exact ⟨hkind, _, _, hnames, hobstacle⟩
  | @refused loc _ shown _ _ _ _ hrefused =>
    refine absurd (hcheck ⟨fault.names, loc, shown⟩ ?_) hrefused
    rw [hvisits]
    exact List.mem_append_right _ List.mem_cons_self

theorem fault_ofSource_iff (hsource : t.stat cwd source = .ok .dir)
    (hcheck : ∀ v ∈ (ofSource t cwd source skip).visits,
      Tree.checkPath (source.descend v.names) = .ok ⟨⟩) :
    (ofSource t cwd source skip).fault ≠ none ↔
      ∃ names name, Obstacle t cwd source skip names name := by
  constructor
  · intro h
    obtain ⟨fault, hfault⟩ := Option.ne_none_iff_exists'.mp h
    obtain ⟨-, names, name, -, hobstacle⟩ := fault_ofSource hsource hcheck hfault
    exact ⟨names, name, hobstacle⟩
  · rintro ⟨names, name, hobstacle⟩ hnone
    exact fault_ofSource_none hnone (.link hobstacle)

end Zipship.Package.Walk
