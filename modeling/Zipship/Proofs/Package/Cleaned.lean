import Zipship.Proofs.Clean.Frame
import Zipship.Proofs.Package.Archive
import Zipship.Proofs.Package.Thinned

/-!
# Archiving before and after cleaning

Cleaning and archiving each have their own idea of what an interpreter made. They agree: what a run
removes below a source is what an archive leaves out there (`exists_skipped_of_pruned`). So the
archive that is written after cleaning is the one that was written before
(`writeArchive_after_clean`), as long as the path of the source still leads there. It may lead
through a directory that cleaning removes (`source_through_target`).
-/

namespace Zipship.Package

variable {t t' before cleaned opened opened' : Tree} {cwd root place place' : Loc} {c : Config}
  {source dest dest' exclude : Path} {src names : List Name} {name : Name} {node : Node}
  {report : Clean.Report}

/-! ## What is skipped -/

/-- What is missing below a source after cleaning is in something that an archive skips. -/
theorem exists_skipped_of_pruned (hpruned : Clean.PrunedBelow t root t') (hsrc : src ≠ [])
    (hkeep : ¬ Clean.Transient t root (root ++ src))
    (hsome : (t.get? (root ++ src ++ names)).isSome)
    (hgone : t'.get? (root ++ src ++ names) = none) :
    ∃ q m, q <+: names ∧ q ≠ [] ∧ t.get? (root ++ src ++ q) = some m ∧
      isSkipped source dest exclude q m = true := by
  rw [List.append_assoc] at hsome hgone
  have htrans : Clean.Transient t root (root ++ (src ++ names)) := by
    rcases hpruned _ (List.prefix_append root (src ++ names)) with heq | ⟨-, htrans⟩
    · rw [← heq, hgone] at hsome
      cases hsome
    · exact htrans
  obtain ⟨q, hq, hstop⟩ := Clean.stop_of_transient htrans
  have hbehind : ¬ q <+: src := by
    intro hpre
    have habove := Tree.isSome_of_isPrefix hsome
      ((List.prefix_append_right_inj root).mpr (List.prefix_append src names))
    exact hkeep (hstop.elim (Clean.transient_of_isFixed · hpre)
      (Clean.transient_of_isCache · hpre habove))
  obtain ⟨rest, rfl⟩ :=
    (List.prefix_or_prefix_of_prefix hq (List.prefix_append src names)).resolve_left hbehind
  have hrest : rest ≠ [] := by
    rintro rfl
    rw [List.append_nil] at hbehind
    exact hbehind List.prefix_rfl
  rcases hstop with ⟨fixed, -, heq⟩ | ⟨above, name, m, heq, hget, hname⟩
  · have hlen := congrArg List.length heq
    have hsrcLen := List.length_pos_iff.mpr hsrc
    have hrestLen := List.length_pos_iff.mpr hrest
    rw [List.length_append, List.length_singleton] at hlen
    omega
  · have hlast : rest.getLast? = some name := by
      have hwhole := congrArg List.getLast? heq
      rwa [List.getLast?_append_of_ne_nil _ hrest, List.getLast?_concat] at hwhole
    refine ⟨rest, m, (List.prefix_append_right_inj src).mp hq, hrest, ?_, ?_⟩
    · rw [List.append_assoc]
      exact hget
    · simp [isSkipped, hlast, hname]

/-- Where neither the archive nor the excluded directory is spelled, an archive leaves out what an
interpreter made. -/
theorem isSkipped_eq (hentry : ∀ n ∈ names, n.IsEntry)
    (hdest : dest.lexical cwd ≠ source.lexical cwd ++ names)
    (hexclude : ¬ exclude.components <+: source.components ++ names.map .name) :
    isSkipped source dest exclude names node = names.getLast?.any (Node.isBytecode · node) := by
  have hcomponents := Path.components_descend (p := source) hentry
  have hsame : (source.descend names).same dest = false := by
    refine decide_eq_false fun heq => hdest ?_
    rw [← Path.lexical_append hcomponents]
    unfold Path.lexical
    rw [heq]
  have hbelow : (source.descend names).isBelow exclude = false := by
    rw [Path.isBelow, hcomponents]
    exact Bool.eq_false_iff.mpr fun hpre => hexclude (List.isPrefixOf_iff_prefix.mp hpre)
  simp [isSkipped, hsame, hbelow]

/-! ## The source -/

/-- The configured source is the directory that the names `src` lead down to from the project
directory at `root`, and it is in nothing that cleaning removes. -/
structure SourceAt (t : Tree) (cwd : Loc) (c : Config) (root : Loc) (src : List Name) : Prop where
  spelled : c.src.components = src.map .name
  ne_nil : src ≠ []
  leads : ∃ pos, t.resolve cwd c.sourceDir = .ok pos ∧ pos.loc = root ++ src
  isDir : t.get? (root ++ src) = some .dir
  kept : ¬ Clean.Transient t root (root ++ src)

namespace SourceAt

variable (h : SourceAt t cwd c root src)

include h

theorem components : c.sourceDir.components = c.root.components ++ src.map .name := by
  obtain ⟨habs, hhere⟩ := Path.relative_of_components h.spelled
  rw [Config.sourceDir, Path.components_join habs hhere, h.spelled]

theorem lexical_source (hlinks : t.LinkFree) : c.sourceDir.lexical cwd = root ++ src := by
  obtain ⟨pos, hresolve, hloc⟩ := h.leads
  rw [← hlinks.loc_of_resolve hresolve, hloc]

theorem lexical_root (hlinks : t.LinkFree) : c.root.lexical cwd = root := by
  have happend : c.sourceDir.lexical cwd = c.root.lexical cwd ++ src :=
    Path.lexical_append h.components
  rw [h.lexical_source hlinks] at happend
  exact (List.append_cancel_right happend).symm

/-- The source is not spelled in the target directory. -/
theorem not_excluded (names : List Name) :
    ¬ c.targetDir.components <+: c.sourceDir.components ++ names.map .name := by
  have htarget : c.targetDir.components = c.root.components ++ [.name Config.targetName] :=
    Path.components_child ⟨⟨by decide, by decide⟩, by decide, by decide⟩
  obtain ⟨first, rest, rfl⟩ := List.exists_cons_of_ne_nil h.ne_nil
  rw [htarget, h.components, List.append_assoc, List.prefix_append_right_inj]
  intro hpre
  obtain rfl : Config.targetName = first := by
    simpa using (List.cons_prefix_cons.mp hpre).1
  exact h.kept (.fixed (by decide))

end SourceAt

/-! ## A new archive beside the project -/

/-- A new file can be made under the path, outside the project directory. -/
structure NewFile (t : Tree) (cwd root : Loc) (dest : Path) (place : Loc) : Prop where
  create : ∃ opened, Tree.create cwd dest t = .ok (place, opened)
  free : t.get? place = none
  outside : ¬ root <+: place

/-- What comes of an archive: how the filling of it with a walk ended decides it. -/
def outcome (w : Walk) : Option Error → Except Error Summary
  | some e => .error e
  | none => .ok (summarize w.visits)

namespace NewFile

theorem of_place (hplace : (Tree.create cwd dest t).map Prod.fst = .ok place)
    (hfree : t.get? place = none) (hout : ¬ root <+: place) : NewFile t cwd root dest place := by
  obtain ⟨⟨place, opened⟩, hcreate, rfl⟩ := map_eq_ok hplace
  exact ⟨⟨opened, hcreate⟩, hfree, hout⟩

variable (h : NewFile t cwd root dest place)

include h

/-- An archive that is written to a new file. -/
theorem exec_writeArchive (source exclude : Path) :
    ∃ opened made filled, Tree.AgreeOff t opened place ∧ Tree.AgreeOff t made place ∧
      fill source dest place (archiveWalk opened cwd source dest exclude).fault .empty
        (archiveWalk opened cwd source dest exclude).visits = filled ∧
      (writeArchive cwd source dest exclude).exec t =
        (outcome (archiveWalk opened cwd source dest exclude) filled.2, made) ∧
      made.get? place = some (.file filled.1 Tree.newFileMode) := by
  obtain ⟨opened, hcreate⟩ := h.create
  have hagree := Tree.agreeOff_create hcreate
  obtain ⟨-, ⟨mode, hget, ⟨-, rfl⟩ | ⟨old, hold⟩⟩ | ⟨d, hold, -⟩⟩ := Tree.create_ok hcreate
  · generalize hfill : fill source dest place (archiveWalk opened cwd source dest exclude).fault
      .empty (archiveWalk opened cwd source dest exclude).visits = filled
    have hwrite : Tree.write place filled.1 opened = .ok (⟨⟩, _) := Tree.write_of_file hget
    obtain ⟨hmade, hframe⟩ := Tree.write_file hget hwrite
    refine ⟨opened, _, filled, hagree, ⟨fun k hk => ?_, hagree.leaf, ?_⟩, hfill, ?_, hmade⟩
    · rw [hframe k hk, hagree.agree k hk]
    · simp [Tree.IsLeaf, hmade]
    · rw [exec_writeArchive_created hcreate rfl hfill hwrite]
      cases filled.2 <;> rfl
  · rw [h.free] at hold
    cases hold
  · rw [h.free] at hold
    cases hold

theorem lexical_eq (hlinks : t.LinkFree) : dest.lexical cwd = place := by
  obtain ⟨opened, hcreate⟩ := h.create
  exact (hlinks.place_of_create hcreate).symm

end NewFile

/-! ## Before and after -/

section SourceAt

variable (h : SourceAt t cwd c root src)

include h

/-- Files outside the project directory do not matter to the source. -/
theorem SourceAt.of_agreeOff (hagree : Tree.AgreeOff t t' place) (hplace : ¬ root <+: place) :
    SourceAt t' cwd c root src := by
  have hsame : ∀ k, root <+: k → t'.get? k = t.get? k := fun k hk =>
    hagree.agree k fun he => hplace (he ▸ hk)
  obtain ⟨pos, hresolve, hloc⟩ := h.leads
  refine ⟨h.spelled, h.ne_nil, ⟨pos, hagree.resolve hresolve fun he => ?_, hloc⟩, ?_,
    fun htrans => h.kept (htrans.mono fun k node hk hget => by rwa [← hsame k hk])⟩
  · rw [← he, hloc] at hplace
    exact absurd (List.prefix_append root src) hplace
  · rw [hsame _ (List.prefix_append root src), h.isDir]

/-- The canonical path of a project directory leads to the source while that is there. -/
theorem SourceAt.resolves (hdir : t'.get? (root ++ src) = some .dir) (hroot : c.root = root.path) :
    ∃ pos, t'.resolve cwd c.sourceDir = .ok pos := by
  obtain ⟨pos, hresolve, -⟩ := h.leads
  have hentry : ∀ n ∈ root, n.IsEntry := fun n hn =>
    Name.isEntry_of_valid (Tree.valid_of_get? hdir n (List.mem_append_left _ hn))
  have hspell := Loc.spells_path fun n hn => (hentry n hn).toIsPiece
  have hcomponents : c.sourceDir.components = .root :: (root ++ src).map .name := by
    rw [h.components, hroot, hspell.components hentry, List.map_append]
    rfl
  exact ⟨_, Tree.resolve_components hcomponents (Tree.resolve_ok hresolve).1 hdir⟩

/-- Cleaning leaves the source where it is, if its path still leads there. -/
theorem SourceAt.of_pruned (hlinks : t.LinkFree) (hpruned : Clean.Pruned t root cleaned)
    (hfound : c.root = root.path ∨ ∃ pos, cleaned.resolve cwd c.sourceDir = .ok pos) :
    SourceAt cleaned cwd c root src := by
  have hdir : cleaned.get? (root ++ src) = some .dir := by
    rw [hpruned.get?_eq h.kept, h.isDir]
  have hlinks' : cleaned.LinkFree := hlinks.of_subset fun _ _ => hpruned.get?_eq_some
  obtain ⟨pos, hresolve⟩ := hfound.elim (h.resolves hdir) id
  refine ⟨h.spelled, h.ne_nil, ⟨pos, hresolve, ?_⟩, hdir, fun htrans => h.kept ?_⟩
  · rw [hlinks'.loc_of_resolve hresolve, h.lexical_source hlinks]
  · exact htrans.mono fun _ _ _ => hpruned.get?_eq_some

/-- What differs below the source is skipped, and of the rest the same is skipped. -/
theorem SourceAt.thinned (hlinks : t.LinkFree) (hpruned : Clean.PrunedBelow t root t')
    (hdest : ¬ root <+: dest.lexical cwd) (hdest' : ¬ root <+: dest'.lexical cwd) :
    Walk.Thinned t t' (root ++ src) (isSkipped c.sourceDir dest c.targetDir)
      (isSkipped c.sourceDir dest' c.targetDir) := by
  have hbelow (names : List Name) : root <+: root ++ src ++ names :=
    (List.prefix_append root src).trans (List.prefix_append _ names)
  have hskip {dest : Path} (hdest : ¬ root <+: dest.lexical cwd) (names : List Name) (node : Node)
      (hget : t.get? (root ++ src ++ names) = some node) :
      isSkipped c.sourceDir dest c.targetDir names node =
        names.getLast?.any (Node.isBytecode · node) := by
    have hentry : ∀ n ∈ names, n.IsEntry := fun n hn =>
      Name.isEntry_of_valid (Tree.valid_of_get? hget n (List.mem_append_right _ hn))
    have hother : dest.lexical cwd ≠ c.sourceDir.lexical cwd ++ names := by
      intro heq
      rw [heq, h.lexical_source hlinks] at hdest
      exact hdest (hbelow names)
    exact isSkipped_eq hentry hother (h.not_excluded names)
  exact {
    unlinked names target := hlinks _ target
    kept names _ := hpruned.get?_eq_some (hbelow names)
    missing _ := exists_skipped_of_pruned hpruned h.ne_nil h.kept
    skips names node _ hget := by rw [hskip hdest names node hget, hskip hdest' names node hget] }

/-- The walk of what goes into an archive is the same when transient artifacts are missing, and it
stays in the project directory. -/
theorem SourceAt.archiveWalk_eq (hlinks : t.LinkFree) (hpruned : Clean.PrunedBelow t root t')
    (h' : SourceAt t' cwd c root src) (hdest : ¬ root <+: dest.lexical cwd)
    (hdest' : ¬ root <+: dest'.lexical cwd) :
    archiveWalk t' cwd c.sourceDir dest' c.targetDir =
        archiveWalk t cwd c.sourceDir dest c.targetDir ∧
      ∀ v ∈ (archiveWalk t cwd c.sourceDir dest c.targetDir).visits, root <+: v.loc := by
  have hthinned := h.thinned hlinks hpruned hdest hdest'
  obtain ⟨pos, hresolve, hloc⟩ := h.leads
  obtain ⟨pos', hresolve', hloc'⟩ := h'.leads
  refine ⟨hthinned.ofSource_eq hresolve hresolve' hloc hloc' h'.isDir, fun v hv => ?_⟩
  rw [Walk.loc_of_mem_ofSource hthinned.unlinked hresolve hloc hv]
  exact (List.prefix_append root src).trans (List.prefix_append _ _)

/-- Cleaning removes only what is transient, however the paths of the run are spelled. -/
theorem SourceAt.pruned_of_run (hlinks : t.LinkFree)
    (hclean : (Clean.run cwd c false).exec t = (.ok report, cleaned)) :
    Clean.Pruned t root cleaned := by
  have haims : Clean.Aims t (c.root.lexical cwd) cwd c := Clean.aims_of_linkFree hlinks
  rw [h.lexical_root hlinks] at haims
  have hprunes : Clean.Pruned t root ((Clean.run cwd c false).exec t).2 := haims.prunes
  rwa [hclean] at hprunes

end SourceAt

/-- **An archive is the same before and after cleaning**, where there are no links: what comes of
it is the same, but that an error may name the new file, and the new file holds the same. If the
archive succeeds, that are the same entries in the same order. The first archive may be there while
the project is cleaned. The path of the source has to lead somewhere afterwards, which it does when
the project directory is configured by its canonical path. -/
theorem writeArchive_after_clean (hlinks : t.LinkFree) (hsource : SourceAt t cwd c root src)
    (hnew : NewFile t cwd root dest place)
    (hbefore : before = t ∨
      before = ((writeArchive cwd c.sourceDir dest c.targetDir).exec t).2)
    (hclean : (Clean.run cwd c false).exec before = (.ok report, cleaned))
    (hfound : c.root = root.path ∨ ∃ pos, cleaned.resolve cwd c.sourceDir = .ok pos)
    (hnew' : NewFile cleaned cwd root dest' place') :
    ∃ result result' content made made',
      (writeArchive cwd c.sourceDir dest c.targetDir).exec t = (result, made) ∧
      (writeArchive cwd c.sourceDir dest' c.targetDir).exec cleaned = (result', made') ∧
      (result' = result ∨ ∃ cause, result = .error (.archive dest cause) ∧
        result' = .error (.archive dest' cause)) ∧
      made.get? place = some (.file content Tree.newFileMode) ∧
      made'.get? place' = some (.file content Tree.newFileMode) ∧
      ∀ summary, result = .ok summary → ∃ entries, content = Zip.encode entries ∧
        summary.entries = entries.length := by
  obtain ⟨opened, made, filled, hopened, hmade, hfill, hexec, hfile⟩ :=
    hnew.exec_writeArchive c.sourceDir c.targetDir
  obtain ⟨opened', made', filled', hopened', -, hfill', hexec', hfile'⟩ :=
    hnew'.exec_writeArchive c.sourceDir c.targetDir
  have hbeside {l k : Loc} (hl : ¬ root <+: l) (hk : root <+: k) : k ≠ l := fun he => hl (he ▸ hk)
  have hstart : SourceAt before cwd c root src ∧ before.LinkFree ∧
      ∀ k, root <+: k → before.get? k = t.get? k := by
    rcases hbefore with rfl | rfl
    · exact ⟨hsource, hlinks, fun _ _ => rfl⟩
    · rw [hexec]
      exact ⟨hsource.of_agreeOff hmade hnew.outside, hlinks.of_agreeOff hmade,
        fun k hk => hmade.agree k (hbeside hnew.outside hk)⟩
  obtain ⟨hsourceBefore, hlinksBefore, hsame⟩ := hstart
  have hpruned := hsourceBefore.pruned_of_run hlinksBefore hclean
  have hlinksCleaned : cleaned.LinkFree :=
    hlinksBefore.of_subset fun _ _ => hpruned.get?_eq_some
  have hsourceCleaned := hsourceBefore.of_pruned hlinksBefore hpruned hfound
  -- the files that the archives are written to are not where the walks are
  have hbelow : Clean.PrunedBelow opened root opened' := by
    refine hpruned.below.congr (fun k hk => ?_) fun k hk =>
      hopened'.agree k (hbeside hnew'.outside hk)
    rw [hopened.agree k (hbeside hnew.outside hk), hsame k hk]
  obtain ⟨hwalk, hinside⟩ := (hsource.of_agreeOff hopened hnew.outside).archiveWalk_eq
    (hlinks.of_agreeOff hopened) hbelow (hsourceCleaned.of_agreeOff hopened' hnew'.outside)
    ((hnew.lexical_eq hlinks).symm ▸ hnew.outside)
    ((hnew'.lexical_eq hlinksCleaned).symm ▸ hnew'.outside)
  have hself := fun v hv => hbeside hnew.outside (hinside v hv)
  rw [hwalk] at hexec' hfill'
  obtain ⟨hcontent, herror⟩ := fill_beside hself fun v hv => hbeside hnew'.outside (hinside v hv)
  rw [hfill, hfill'] at hcontent herror
  refine ⟨_, _, filled.1, made, made', hexec, hexec', ?_, hfile, hcontent ▸ hfile', ?_⟩
  · rcases herror with herror | ⟨cause, hcause, hcause'⟩
    · exact Or.inl (by rw [herror])
    · exact Or.inr ⟨cause, by rw [hcause]; rfl, by rw [hcause']; rfl⟩
  · intro summary hok
    cases hfailure : filled.2 with
    | some e =>
      rw [hfailure] at hok
      cases hok
    | none =>
      rw [hfailure] at hok
      cases hok
      obtain ⟨htakes, -⟩ := fill_eq_none (hfill ▸ hfailure)
      rw [← hfill, fill_of_takes htakes]
      exact ⟨_, draftOf_close hself, by rw [List.length_map]; rfl⟩

/-- An outcome, with the tree that goes with it. -/
theorem eq_of_outcome {α : Type} {run : α × Tree} {a : α} (h : run.1 = a) : run = (a, run.2) := by
  rw [← h]

/-- A project with compiled files at several depths, and with build output. -/
def littered : Tree :=
  Tree.placeAll [] [.file ⟨"/p/src/a.py"⟩ [1] 0o644, .file ⟨"/p/src/b.pyc"⟩ [2] 0o644,
    .dir ⟨"/p/src/c.pyc/__pycache__"⟩, .dir ⟨"/p/target"⟩] Tree.empty

theorem linkFree_littered : littered.LinkFree := by decide +kernel

/-- The source is where any path of the project directory leads to it. -/
theorem SourceAt.littered {p : Path}
    (hleads : Package.littered.resolve [] (Config.withRoot p).sourceDir =
      .ok ⟨["p", "src"], Tree.maxLinks⟩) :
    SourceAt Package.littered [] (Config.withRoot p) ["p"] ["src"] := by
  have hspelled : (⟨"src"⟩ : Path).components = [.name "src"] := by decide +kernel
  have hdir : Package.littered.get? ((["p"] : Loc) ++ [("src" : Name)]) = some .dir := by
    decide +kernel
  exact ⟨hspelled, by decide, ⟨_, hleads, rfl⟩, hdir,
    Clean.not_transient_directory hdir (by decide) (by decide)⟩

theorem NewFile.littered : NewFile Package.littered [] ["p"] ⟨"/a.zip"⟩ ["a.zip"] :=
  .of_place (by decide +kernel) (by decide +kernel) (by decide)

set_option maxRecDepth 100000 in
theorem writeArchive_after_clean_littered :
    ∃ made report cleaned entries made',
      (writeArchive [] ⟨"/p/src"⟩ ⟨"/a.zip"⟩ ⟨"/p/target"⟩).exec littered =
        (.ok ⟨2, false⟩, made) ∧
      (Clean.run [] (Config.withRoot ⟨"/p"⟩) false).exec made = (.ok report, cleaned) ∧
      report.removed = [⟨"/p/target"⟩, ⟨"/p/src/b.pyc"⟩, ⟨"/p/src/c.pyc/__pycache__"⟩] ∧
      (writeArchive [] ⟨"/p/src"⟩ ⟨"/b.zip"⟩ ⟨"/p/target"⟩).exec cleaned =
        (.ok ⟨2, false⟩, made') ∧
      made.get? ["a.zip"] = some (.file (Zip.encode entries) 0o644) ∧
      made'.get? ["b.zip"] = some (.file (Zip.encode entries) 0o644) ∧ entries.length = 2 := by
  let c := Config.withRoot ⟨"/p"⟩
  have hpaths : c.sourceDir = ⟨"/p/src"⟩ ∧ c.targetDir = ⟨"/p/target"⟩ ∧
      c.root = Loc.path ["p"] := by
    decide +kernel
  have hsource : SourceAt littered [] c ["p"] ["src"] :=
    .littered (by decide +kernel)
  have hfirst : ((writeArchive [] c.sourceDir ⟨"/a.zip"⟩ c.targetDir).exec littered).1 =
      .ok ⟨2, false⟩ := by
    decide +kernel
  have hrun : ((Clean.run [] c false).exec
      ((writeArchive [] c.sourceDir ⟨"/a.zip"⟩ c.targetDir).exec littered).2).1 =
        .ok ⟨[⟨"/p/target"⟩, ⟨"/p/src/b.pyc"⟩, ⟨"/p/src/c.pyc/__pycache__"⟩], 1, false⟩ := by
    decide +kernel
  have hnew' : NewFile ((Clean.run [] c false).exec
      ((writeArchive [] c.sourceDir ⟨"/a.zip"⟩ c.targetDir).exec littered).2).2 [] ["p"]
        ⟨"/b.zip"⟩ ["b.zip"] :=
    .of_place (by decide +kernel) (by decide +kernel) (by decide)
  obtain ⟨result, result', content, made, made', hmade, hmade', hsame, hzip, hzip', hentries⟩ :=
    writeArchive_after_clean linkFree_littered hsource NewFile.littered (Or.inr rfl)
      (eq_of_outcome hrun) (Or.inl hpaths.2.2) hnew'
  rw [hmade] at hfirst hrun hmade'
  obtain rfl : result = _ := hfirst
  obtain rfl : result' = _ := hsame.resolve_right fun ⟨_, h, _⟩ => by cases h
  obtain ⟨entries, rfl, hlength⟩ := hentries _ rfl
  rw [hpaths.1, hpaths.2.1] at hmade hmade'
  exact ⟨made, _, _, entries, made', hmade, eq_of_outcome hrun, rfl, hmade', hzip, hzip',
    hlength.symm⟩

/-- A project directory that is configured by a path through its own target directory. -/
def throughTarget : Config := Config.withRoot ⟨"/p/target/.."⟩

set_option maxRecDepth 100000 in
/-- The path of the source may lead through what cleaning removes. Then it leads nowhere afterwards,
and nothing can be archived any more. -/
theorem source_through_target :
    littered.LinkFree ∧ SourceAt littered [] throughTarget ["p"] ["src"] ∧
      NewFile littered [] ["p"] ⟨"/a.zip"⟩ ["a.zip"] ∧
      ((writeArchive [] throughTarget.sourceDir ⟨"/a.zip"⟩ throughTarget.targetDir).exec
        littered).1 = .ok ⟨2, false⟩ ∧
      ∃ cleaned,
        (Clean.run [] throughTarget false).exec littered =
          (.ok ⟨[⟨"/p/target/../target"⟩], 0, false⟩, cleaned) ∧
        NewFile cleaned [] ["p"] ⟨"/a.zip"⟩ ["a.zip"] ∧
        ((writeArchive [] throughTarget.sourceDir ⟨"/a.zip"⟩ throughTarget.targetDir).exec
          cleaned).1.isOk = false := by
  have hsource : SourceAt littered [] throughTarget ["p"] ["src"] :=
    .littered (by decide +kernel)
  have hfirst : ((writeArchive [] throughTarget.sourceDir ⟨"/a.zip"⟩ throughTarget.targetDir).exec
      littered).1 = .ok ⟨2, false⟩ := by
    decide +kernel
  have hrun : ((Clean.run [] throughTarget false).exec littered).1 =
      .ok ⟨[⟨"/p/target/../target"⟩], 0, false⟩ := by
    decide +kernel
  have hnew' : NewFile ((Clean.run [] throughTarget false).exec littered).2 [] ["p"] ⟨"/a.zip"⟩
      ["a.zip"] :=
    .of_place (by decide +kernel) (by decide +kernel) (by decide)
  have hsecond : ((writeArchive [] throughTarget.sourceDir ⟨"/a.zip"⟩ throughTarget.targetDir).exec
      ((Clean.run [] throughTarget false).exec littered).2).1.isOk = false := by
    decide +kernel
  exact ⟨linkFree_littered, hsource, NewFile.littered, hfirst, _, eq_of_outcome hrun, hnew',
    hsecond⟩

end Zipship.Package
