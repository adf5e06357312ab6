import Zipship.Proofs.Package.Archive
import Zipship.Proofs.Package.Barrier

/-!
# What an abandoned archive holds

When the walk of the sources comes to its first barrier, the archive is closed with what was listed
until then. That is exactly what is kept and precedes the barrier (`writeArchive_abandoned`): not
the time decides, but the order of the names. A link that is the barrier has no entry. A directory
that is the barrier, since its path is too long, has one: it is listed before it is opened
(`long_directory_is_held`).
-/

namespace Zipship.Package

variable {t t' opened : Tree} {cwd place loc : Loc} {source dest exclude p : Path} {reason : String}
  {names failing : List Name} {node : Node} {mode : Nat} {v : Visit} {fault : Walk.Fault}
  {last : List Visit}

/-- What is there itself, and not a link, but cannot be opened since its path is refused. -/
structure Unopenable (t : Tree) (cwd : Loc) (source : Path) (names : List Name) (loc : Loc) :
    Prop where
  stands : Walk.Stands t cwd source names loc
  refused : Tree.checkPath (source.descend names) ≠ .ok ⟨⟩

/-- What the archive holds if `failing` ended the walk. -/
def HeldUntil (t : Tree) (cwd : Loc) (source dest exclude : Path) (failing names : List Name)
    (loc : Loc) (node : Node) : Prop :=
  Kept t cwd source dest exclude names loc node ∧ (Tree.Precedes names failing ∨
    names = failing ∧ node = .dir ∧ Unopenable t cwd source failing loc)

theorem Unopenable.transfer (h : Unopenable t cwd source names loc)
    (hagree : Tree.AgreeOff t t' place) : Unopenable t' cwd source names loc := by
  obtain ⟨⟨above, name, dir, hnames, hleads, hloc⟩, hrefused⟩ := h
  have hne := hagree.ne_of_isDir hleads.get?_eq
  obtain ⟨node, hleads', hnode, -⟩ := hagree.leads hleads fun he => absurd he hne
  exact ⟨⟨above, name, dir, hnames, hnode hne ▸ hleads', hloc⟩, hrefused⟩

/-! ## The archive -/

/-- If the walk ended an archive, it is closed with what was listed, as long as the last entry can
be finished. -/
theorem writeArchive_walk_error (hcreate : Tree.create cwd dest t = .ok (place, opened))
    (hfile : opened.get? place = some (.file [] mode))
    (hself : ∀ v ∈ (archiveWalk opened cwd source dest exclude).visits, v.loc ≠ place)
    (hlast : ∀ v ∈ (archiveWalk opened cwd source dest exclude).visits.getLast?, v.node ≠ .dir →
      (Deflate.compress v.node.content).length ≤ Zip.maxSize)
    (h : (writeArchive cwd source dest exclude).exec t = (.error (.walk p reason), t')) :
    ∃ fault, (archiveWalk opened cwd source dest exclude).fault = some fault ∧
      p = source.descend fault.names ∧ (∀ names e, fault ≠ .unopened names e) ∧
      Tree.write place (draftOf place (archiveWalk opened cwd source dest exclude).visits).close
        opened = .ok (⟨⟩, t') := by
  rw [exec_writeArchive_created hcreate rfl rfl (Tree.write_of_file hfile)] at h
  obtain ⟨hresult, htree⟩ := Prod.mk.inj h
  have htakes : Takes place (archiveWalk opened cwd source dest exclude).visits := by
    cases hfailure : (fill source dest place (archiveWalk opened cwd source dest exclude).fault
        .empty (archiveWalk opened cwd source dest exclude).visits).2 with
    | none =>
      rw [hfailure] at hresult
      cases hresult
    | some e =>
      rw [hfailure] at hresult
      cases hresult
      exact fill_eq_walk hfailure fun draft v hv =>
        (isPackedTooLarge_eq_false_iff (hself v (List.mem_of_getLast? hv))).mpr (hlast v hv)
  rw [fill_of_takes htakes] at hresult htree
  cases hfault : (archiveWalk opened cwd source dest exclude).fault with
  | none =>
    rw [hfault] at hresult
    cases hresult
  | some fault =>
    rw [hfault] at hresult
    have hwrite := htree ▸ Tree.write_of_file hfile
    cases fault with
    | unopened names e => cases hresult
    | unreachable names e | loop names ancestor =>
      cases hresult
      exact ⟨_, rfl, rfl, by simp, hwrite⟩

/-- What was listed last when the walk ended is a directory that cannot be opened. -/
theorem held_of_mem_last
    (hlast : Walk.LastListed t cwd source (isSkipped source dest exclude) fault last)
    (hkind : ∀ names e, fault ≠ .unopened names e) (hv : v ∈ last) :
    Kept t cwd source dest exclude v.names v.loc v.node ∧ v.names = fault.names ∧ v.node = .dir ∧
      Unopenable t cwd source fault.names v.loc := by
  cases hlast with
  | source | link => cases hv
  | refused hnode hshown hdue hstands hcheck =>
    obtain rfl := List.mem_singleton.mp hv
    obtain rfl : _ = Node.dir := hnode.resolve_right fun ⟨e, he⟩ => hkind _ e he
    obtain rfl := hshown rfl
    exact ⟨kept_iff_due.mpr hdue, rfl, rfl, hstands, hcheck⟩

/-- If there is a directory that cannot be opened where the walk ended, it was listed last. -/
theorem mem_last_of_held
    (hlast : Walk.LastListed t cwd source (isSkipped source dest exclude) fault last)
    (hkept : Kept t cwd source dest exclude fault.names loc .dir)
    (h : Unopenable t cwd source fault.names loc) : ∃ v ∈ last, v.names = fault.names := by
  cases hlast with
  | source hnames => exact absurd hnames hkept.ne_nil
  | @link names name hnames _ hobstacle =>
    obtain ⟨dir, target, hdir, hlink⟩ := hobstacle.isLink
    obtain ⟨above, n, dir', heq, hdir', rfl⟩ := h.stands
    obtain ⟨rfl, hn⟩ := List.append_inj' (hnames.symm.trans heq) rfl
    obtain rfl : name = n := by simpa using hn
    obtain ⟨rfl, -⟩ := hdir.unique hdir'
    rw [hkept.leads.get?_eq] at hlink
    cases hlink
  | refused => exact ⟨_, List.mem_singleton_self _, rfl⟩

/-- **An abandoned archive** holds what is kept and precedes the names that ended the walk, each
once and as it is; and a directory that cannot be opened, if that ended it. The walk ended at the
first barrier in its way. Nothing but the file of the archive is changed. The archive can only be
closed if the last entry can be finished. -/
theorem writeArchive_abandoned (hcreate : Tree.create cwd dest t = .ok (place, opened))
    (hfile : opened.get? place = some (.file [] mode))
    (hself : ∀ v ∈ (archiveWalk opened cwd source dest exclude).visits, v.loc ≠ place)
    (hlast : ∀ v ∈ (archiveWalk opened cwd source dest exclude).visits.getLast?, v.node ≠ .dir →
      (Deflate.compress v.node.content).length ≤ Zip.maxSize)
    (h : (writeArchive cwd source dest exclude).exec t = (.error (.walk p reason), t')) :
    ∃ (failing : List Name) (archived : List (List Name)) (entries : List Zip.Entry),
      p = source.descend failing ∧
      (∀ l, l ≠ place → t'.get? l = t.get? l) ∧
      t'.get? place = some (.file (Zip.encode entries) mode) ∧
      archived.Pairwise Tree.Precedes ∧
      (∀ names, names ∈ archived ↔
        ∃ loc node, HeldUntil t cwd source dest exclude failing names loc node) ∧
      List.Forall₂ (fun names entry => ∃ loc node,
        HeldUntil t cwd source dest exclude failing names loc node ∧ Describes entry names node)
        archived entries ∧
      Walk.Barrier opened cwd source (isSkipped source dest exclude) failing ∧
      ∀ q, Walk.Barrier opened cwd source (isSkipped source dest exclude) q →
        ¬ Tree.Precedes q failing := by
  obtain ⟨fault, hfault, hp, hkind, hwrite⟩ :=
    writeArchive_walk_error hcreate hfile hself hlast h
  obtain ⟨hbarrier, hfirst⟩ := Walk.fault_ofSource_some hfault
  obtain ⟨earlier, last, hvisits, hearlier, hlisted⟩ := Walk.visits_ofSource_of_fault hfault
  have hagree := Tree.agreeOff_create hcreate
  have hheld (v : Visit) (hv : v ∈ (archiveWalk opened cwd source dest exclude).visits) :
      HeldUntil t cwd source dest exclude fault.names v.names v.loc v.node := by
    have hne := hself v hv
    rcases List.mem_append.mp (hvisits ▸ hv) with hv | hv
    · obtain ⟨hdue, hprecedes⟩ := (hearlier v).mp hv
      exact ⟨kept_of_created hcreate (kept_iff_due.mpr hdue) hne, Or.inl hprecedes⟩
    · obtain ⟨hkept, hnames, hnode, hclosed⟩ := held_of_mem_last hlisted hkind hv
      exact ⟨kept_of_created hcreate hkept hne,
        Or.inr ⟨hnames, hnode, hclosed.transfer hagree.symm⟩⟩
  have hfound (names : List Name) (loc : Loc) (node : Node)
      (hheld : HeldUntil t cwd source dest exclude fault.names names loc node) :
      ∃ v ∈ (archiveWalk opened cwd source dest exclude).visits, v.names = names := by
    obtain ⟨hkept, hwhere⟩ := hheld
    obtain ⟨node', hkept', hnode⟩ := kept_in_created hcreate hkept
    rcases hwhere with hprecedes | ⟨rfl, rfl, hclosed⟩
    · refine ⟨⟨names, loc, node'⟩, ?_, rfl⟩
      rw [archiveWalk, hvisits]
      exact List.mem_append_left _ ((hearlier _).mpr ⟨kept_iff_due.mp hkept', hprecedes⟩)
    · rw [hnode (hagree.ne_of_isDir hkept.leads.get?_eq)] at hkept'
      obtain ⟨v, hv, hnames⟩ := mem_last_of_held hlisted hkept' (hclosed.transfer hagree)
      exact ⟨v, hvisits ▸ List.mem_append_right _ hv, hnames⟩
  rw [draftOf_close hself] at hwrite
  obtain ⟨hplace, hframe⟩ := Tree.write_file hfile hwrite
  refine ⟨fault.names, _, _, hp, fun l hl => ?_, hplace,
    List.pairwise_map.mpr (archiveWalk_pairwise opened cwd source dest exclude),
    fun names => ?_, ?_, hbarrier, hfirst⟩
  · rw [hframe l hl, hagree.agree l hl]
  · rw [List.mem_map]
    constructor
    · rintro ⟨v, hv, rfl⟩
      exact ⟨v.loc, v.node, hheld v hv⟩
    · rintro ⟨loc, node, h⟩
      exact hfound names loc node h
  · rw [List.forall₂_map_left_iff, List.forall₂_map_right_iff, List.forall₂_same]
    intro v hv
    have hkept := (hheld v hv).1
    exact ⟨v.loc, v.node, hheld v hv, describes_entryFor hkept.ne_nil hkept.valid⟩

/-- Sources with two links that lead nowhere, of which only the first one counts. -/
def severed : Tree :=
  Tree.placeAll [] [.link ⟨"/s/b"⟩ ⟨"gone"⟩, .file ⟨"/s/a/x"⟩ [1] 0o644, .file ⟨"/s/c"⟩ [2] 0o644,
    .link ⟨"/s/d"⟩ ⟨"."⟩] Tree.empty

set_option maxRecDepth 100000 in
theorem writeArchive_abandoned_severed :
    ∃ opened t' reason failing archived entries,
      Tree.create [] ⟨"/o.zip"⟩ severed = .ok (["o.zip"], opened) ∧
      opened.get? ["o.zip"] = some (.file [] 0o644) ∧
      (archiveWalk opened [] ⟨"/s"⟩ ⟨"/o.zip"⟩ ⟨"/none"⟩).visits =
        [⟨["a"], ["s", "a"], .dir⟩, ⟨["a", "x"], ["s", "a", "x"], .file [1] 0o644⟩] ∧
      (Deflate.compress [1]).length ≤ Zip.maxSize ∧
      (writeArchive [] ⟨"/s"⟩ ⟨"/o.zip"⟩ ⟨"/none"⟩).exec severed =
        (.error (.walk ⟨"/s/b"⟩ reason), t') ∧
      ⟨"/s/b"⟩ = Path.descend ⟨"/s"⟩ failing ∧
      t'.get? ["o.zip"] = some (.file (Zip.encode entries) 0o644) ∧
      (∀ names, names ∈ archived ↔
        ∃ loc node, HeldUntil severed [] ⟨"/s"⟩ ⟨"/o.zip"⟩ ⟨"/none"⟩ failing names loc node) ∧
      List.Forall₂ (fun names entry => ∃ loc node,
        HeldUntil severed [] ⟨"/s"⟩ ⟨"/o.zip"⟩ ⟨"/none"⟩ failing names loc node ∧
          Describes entry names node) archived entries := by
  have hwalk : (Tree.create [] ⟨"/o.zip"⟩ severed).map (fun created =>
      (created.1, created.2.get? ["o.zip"],
        archiveWalk created.2 [] ⟨"/s"⟩ ⟨"/o.zip"⟩ ⟨"/none"⟩)) =
      .ok (["o.zip"], some (.file [] 0o644),
        ⟨[⟨["a"], ["s", "a"], .dir⟩, ⟨["a", "x"], ["s", "a", "x"], .file [1] 0o644⟩],
          some (.unreachable ["b"] .notFound)⟩) := by
    decide +kernel
  obtain ⟨⟨place, opened⟩, hcreate, hcreated⟩ := map_eq_ok hwalk
  obtain ⟨hplace, hrest⟩ := Prod.mk.inj hcreated
  obtain ⟨hfile, hwalk⟩ := Prod.mk.inj hrest
  obtain rfl : place = _ := hplace
  have hself : ∀ v ∈ (archiveWalk opened [] ⟨"/s"⟩ ⟨"/o.zip"⟩ ⟨"/none"⟩).visits,
      v.loc ≠ (["o.zip"] : Loc) := by
    rw [hwalk]
    decide +kernel
  have hpackable : ∀ v ∈ (archiveWalk opened [] ⟨"/s"⟩ ⟨"/o.zip"⟩ ⟨"/none"⟩).visits,
      Packable v.node := by
    have hsmall : ∀ v ∈ (archiveWalk opened [] ⟨"/s"⟩ ⟨"/o.zip"⟩ ⟨"/none"⟩).visits,
        v.node ≠ .device .full ∧ v.node.content.length ≤ 4290000000 := by
      rw [hwalk]
      decide +kernel
    exact fun v hv => .of_length_le (hsmall v hv).1 (hsmall v hv).2
  have htakes : Takes ["o.zip"] (archiveWalk opened [] ⟨"/s"⟩ ⟨"/o.zip"⟩ ⟨"/none"⟩).visits :=
    (takes_iff hself).mpr ⟨by rw [hwalk]; decide +kernel, hpackable⟩
  have hrun := exec_writeArchive_taken hcreate hwalk (hwalk ▸ htakes) (Tree.write_of_file hfile)
  obtain ⟨failing, archived, entries, hp, -, hzip, -, hmem, hall, -⟩ :=
    writeArchive_abandoned hcreate hfile hself
      (fun v hv => (hpackable v (List.mem_of_getLast? hv)).packed) hrun
  refine ⟨opened, _, _, failing, archived, entries, hcreate, hfile, congrArg Walk.visits hwalk, ?_,
    hrun, hp, hzip, hmem, hall⟩
  have hmem : (⟨["a", "x"], ["s", "a", "x"], .file [1] 0o644⟩ : Visit) ∈
      (archiveWalk opened [] ⟨"/s"⟩ ⟨"/o.zip"⟩ ⟨"/none"⟩).visits := by
    rw [hwalk]
    simp
  exact (hpackable _ hmem).packed (by simp)

/-! ## A directory whose path is too long -/

/-- The directory `s` with that many slashes behind it. -/
def slashed (n : Nat) : Path := ⟨("s" : Bytes) ++ List.replicate n slash⟩

theorem pieces_slashed : ∀ n, (slashed n).pieces = ["s"]
  | 0 => by decide +kernel
  | n + 1 => by
    unfold slashed
    rw [List.replicate_succ', ← List.append_assoc]
    exact (pieces_slash _).trans (pieces_slashed n)

theorem size_slashed (n : Nat) : (slashed n).bytes.length = n + 1 := by
  have hs : ("s" : Bytes).length = 1 := by decide
  rw [slashed, List.length_append, hs, List.length_replicate, Nat.add_comm]

theorem checkPath_slashed {n : Nat} (h : n < Tree.maxPathBytes) :
    Tree.checkPath (slashed n) = .ok ⟨⟩ := by
  have hs : ("s" : Bytes) = [115] := by decide
  refine Tree.checkPath_eq_ok.mpr ⟨?_, ?_, ?_⟩
  · simp [Path.hasNul, slashed, hs, slash]
  · simp [slashed, hs]
  · rw [size_slashed]
    exact h

theorem components_slashed (n : Nat) : (slashed n).components = [.name "s"] := by
  have hs : ("s" : Bytes) = [115] := by decide
  have habs : (slashed n).isAbsolute = false := by
    simp [Path.isAbsolute, slashed, hs, slash]
  unfold Path.components
  rw [pieces_slashed, habs]
  decide +kernel

theorem endsWithSlash_slashed (n : Nat) : (slashed (n + 1)).endsWithSlash = true := by
  simp [slashed, Path.endsWithSlash, List.replicate_succ', ← List.append_assoc]

theorem resolve_slashed {n : Nat} (hn : n + 1 < Tree.maxPathBytes)
    (hget : t.get? ["s"] = some .dir) :
    t.resolve [] (slashed (n + 1)) = .ok ⟨["s"], Tree.maxLinks⟩ := by
  have hroute : (slashed (n + 1)).route = ["s", "."] := by
    rw [Path.route, endsWithSlash_slashed, pieces_slashed]
    decide
  have hdirs : t.get? ([] ++ (["s", "."] : List Name).filter (· ≠ Name.here)) = some .dir := hget
  unfold Tree.resolve
  rw [checkPath_slashed hn, hroute, Path.start, ite_self]
  exact Tree.follow_real_dirs hdirs

/-- Behind so many slashes there is not enough left for the name. -/
theorem checkPath_long {n : Nat} (hlong : Tree.maxPathBytes < n + 8) :
    Tree.checkPath ((slashed (n + 1)).descend ["abcdef"]) = .error .nameTooLong := by
  have hchild : (slashed (n + 1)).descend ["abcdef"] = ⟨(slashed (n + 1)).bytes ++ "abcdef"⟩ := by
    show (slashed (n + 1)).child "abcdef" = _
    rw [Path.child_eq ⟨by decide, by decide⟩, Path.separator, endsWithSlash_slashed, Bool.or_true,
      if_pos rfl, List.append_nil]
  have hsize : ((slashed (n + 1)).bytes ++ "abcdef").length = n + 8 := by
    have hname : ("abcdef" : Bytes).length = 6 := by decide
    rw [List.length_append, size_slashed, hname]
  have hnul : 0 ∉ ("abcdef" : Bytes) := by decide
  unfold Tree.checkPath
  rw [hchild, if_neg, if_neg, if_pos]
  · rwa [hsize]
  · simp [slashed]
  · have hs : ("s" : Bytes) = [115] := by decide
    simp [Path.hasNul, slashed, hs, slash, hnul]

/-- The walk of `s` comes to the directory in it, and no further. -/
theorem archiveWalk_slashed {n : Nat} (hn : n + 1 < Tree.maxPathBytes)
    (hlong : Tree.maxPathBytes < n + 8) (hentry : t.get? ["s", "abcdef"] = some .dir)
    (hchildren : t.sortedChildren ["s"] = ["abcdef"]) :
    archiveWalk t [] (slashed (n + 1)) ⟨"o.zip"⟩ ⟨"t"⟩ =
      ⟨[⟨["abcdef"], ["s", "abcdef"], .dir⟩], some (.unreachable ["abcdef"] .nameTooLong)⟩ := by
  have hname : Name.IsEntry "abcdef" := Name.isEntry_of_valid (by decide)
  have hget : t.get? ["s"] = some .dir := (Tree.parent_of_get? (l := ["s"]) hentry).1
  have hrefused := checkPath_long hlong
  have hskip : isSkipped (slashed (n + 1)) ⟨"o.zip"⟩ ⟨"t"⟩ ["abcdef"] .dir = false := by
    unfold isSkipped Path.same Path.isBelow
    rw [Path.components_descend (by simpa using hname), components_slashed]
    decide
  have hbound : ∃ fuel, Walk.depthBound t = fuel + 1 := ⟨_, rfl⟩
  obtain ⟨fuel, hfuel⟩ := hbound
  unfold archiveWalk Walk.ofSource
  rw [resolve_slashed hn hget]
  simp only [hget, if_true]
  rw [hfuel, Walk.ofDir_succ, hchildren]
  show Walk.chain [Walk.walkAt _ _ _ _ _ _ _ _ _] = _
  unfold Walk.walkAt Walk.look
  simp [hentry, hskip, Walk.visit, hrefused, Walk.followedBy, Walk.chain]

/-- Sources with a directory, and nothing in it. -/
def hollow : Tree := Tree.placeAll [] [.dir ⟨"/s/abcdef"⟩] Tree.empty

set_option maxRecDepth 100000 in
/-- **A directory that cannot be opened has an entry** in the archive that it makes an end of. No
names that are kept precede it, but the archive is not empty. -/
theorem long_directory_is_held :
    ∃ opened reason t',
      Tree.create [] ⟨"o.zip"⟩ hollow = .ok (["o.zip"], opened) ∧
      opened.get? ["o.zip"] = some (.file [] 0o644) ∧
      (∀ v ∈ (archiveWalk opened [] (slashed 4089) ⟨"o.zip"⟩ ⟨"t"⟩).visits, v.loc ≠ ["o.zip"]) ∧
      (writeArchive [] (slashed 4089) ⟨"o.zip"⟩ ⟨"t"⟩).exec hollow =
        (.error (.walk ((slashed 4089).descend ["abcdef"]) reason), t') ∧
      (∀ names loc node, Kept hollow [] (slashed 4089) ⟨"o.zip"⟩ ⟨"t"⟩ names loc node →
        ¬ Tree.Precedes names ["abcdef"]) ∧
      t'.get? ["o.zip"] = some (.file (Zip.encode [⟨"abcdef/", .directory⟩]) 0o644) ∧
      Zip.encode [⟨"abcdef/", .directory⟩] ≠ Zip.encode [] := by
  have hopened : (Tree.create [] ⟨"o.zip"⟩ hollow).map (fun created =>
      (created.1, created.2.get? ["o.zip"], created.2.get? ["s", "abcdef"],
        created.2.sortedChildren ["s"])) =
      .ok (["o.zip"], some (.file [] 0o644), some .dir, ["abcdef"]) := by
    decide +kernel
  obtain ⟨⟨place, opened⟩, hcreate, hcreated⟩ := map_eq_ok hopened
  obtain ⟨hplace, hrest⟩ := Prod.mk.inj hcreated
  obtain ⟨hfile, hrest⟩ := Prod.mk.inj hrest
  obtain ⟨hentry, hchildren⟩ := Prod.mk.inj hrest
  obtain rfl : place = _ := hplace
  have hwalk : archiveWalk opened [] (slashed 4089) ⟨"o.zip"⟩ ⟨"t"⟩ = _ :=
    archiveWalk_slashed (n := 4088) (by decide) (by decide) hentry hchildren
  have hself : ∀ v ∈ (archiveWalk opened [] (slashed 4089) ⟨"o.zip"⟩ ⟨"t"⟩).visits,
      v.loc ≠ ["o.zip"] := by
    rw [hwalk]
    decide
  have htakes : Takes ["o.zip"] [⟨["abcdef"], ["s", "abcdef"], .dir⟩] :=
    (takes_iff (by rw [hwalk] at hself; exact hself)).mpr ⟨by simp, by
      have hdir : Packable .dir := .of_length_le (by simp) (by simp [Node.content])
      simpa using hdir⟩
  have hrun := exec_writeArchive_taken hcreate hwalk htakes (Tree.write_of_file hfile)
  refine ⟨opened, _, _, hcreate, hfile, hself, hrun,
    fun names loc node hkept hprecedes => ?_, ?_, by decide +kernel⟩
  · obtain ⟨node', hkept', -⟩ := kept_in_created hcreate hkept
    obtain ⟨earlier, last, hvisits, hearlier, -⟩ :=
      Walk.visits_ofSource_of_fault (congrArg Walk.fault hwalk)
    have hv : (⟨names, loc, node'⟩ : Visit) ∈ earlier :=
      (hearlier _).mpr ⟨kept_iff_due.mp hkept', hprecedes⟩
    have hone := List.mem_append_left last hv
    rw [← hvisits, ← archiveWalk, hwalk, List.mem_singleton] at hone
    exact hprecedes.ne (congrArg Visit.names hone)
  · have hclose : (draftOf ["o.zip"] [⟨["abcdef"], ["s", "abcdef"], .dir⟩]).close =
        Zip.encode [⟨"abcdef/", .directory⟩] := by
      decide +kernel
    rw [← hclose]
    exact (Tree.write_file hfile (Tree.write_of_file hfile)).1

end Zipship.Package
