import Mathlib.Algebra.Group.Nat.Defs
import Zipship.Proofs.Clean.Passes
import Zipship.Proofs.Package.Barrier
import Zipship.Proofs.Package.Fresh

/-!
# When compiling fails

After cleaning, nothing of an older build is in the way. Compiling then fails for its source alone
(`compile_after_clean`): that is missing or not a directory, or the walk of it comes to a link that
it cannot get past, or the archive refuses what the walk lists until then. It refuses a second entry
of the same name, which there can only be where names are no texts (`nodup_of_texts`), and a file
just below the limit that gets larger by being packed.
-/

namespace Zipship.Package

variable {t t' : Tree} {cwd root l place : Loc} {c : Config} {source dest exclude : Path}
  {names : List Name} {node : Node}

/-! ## What a writer of archives takes -/

/-- Behind the source there is left of a path what leads to the entry. -/
theorem strip?_descend (hvalid : ∀ n ∈ names, n.valid = true) :
    Path.strip? source (source.descend names) = some ⟨joinSlash names⟩ := by
  have hbytes : Path.ofComponents (names.map .name) = ⟨joinSlash names⟩ := by
    cases names with
    | nil => rfl
    | cons n rest => simp [Path.ofComponents, Function.comp_def, Component.bytes]
  rw [Path.strip?_descend fun n hn => Name.isEntry_of_valid (hvalid n hn), hbytes]

/-- **Texts lead to entries of different names**: what is shown of a text is that text. -/
theorem nodup_of_texts (htexts : ∀ v ∈ (archiveWalk t cwd source dest exclude).visits,
      ∀ n ∈ v.names, ∃ s : String, n = s) :
    ((archiveWalk t cwd source dest exclude).visits.map fun v =>
      (entryFor v.names v.node).name).Nodup := by
  have hpieces : ((archiveWalk t cwd source dest exclude).visits.map fun v =>
      Path.pieces ⟨(entryFor v.names v.node).name⟩).Nodup := by
    have hshown : ∀ v ∈ (archiveWalk t cwd source dest exclude).visits,
        Path.pieces ⟨(entryFor v.names v.node).name⟩ = v.names := by
      intro v hv
      rw [pieces_entryFor (valid_of_mem_archiveWalk hv)]
      exact ofString_entryNames (htexts v hv)
    rw [List.map_congr_left hshown]
    refine List.pairwise_map.mpr ((archiveWalk_pairwise ..).imp fun {v w} hlex he => ?_)
    rw [he] at hlex
    exact List.lex_irrefl List.lt_irrefl _ hlex
  exact List.Nodup.of_map (fun name : String => Path.pieces ⟨name⟩) (by rwa [List.map_map])

/-! ## What comes of compiling -/

/-- What stands in the way of the walk of a project's source: in the directory that `names` lead to,
a link of the `name` that cannot be followed or leads back. Neither that directory nor one on the
way there is left out. -/
def Obstructed (t : Tree) (cwd root : Loc) (c : Config) (names : List Name) (name : Name) : Prop :=
  Walk.Obstacle (underway t root c) cwd c.sourceDir
    (isSkipped c.sourceDir c.archivePath c.targetDir) names name

/-- Two entries that are listed for the archive, until something ends the walk, have the same name.
-/
def Clash (t : Tree) (cwd root : Loc) (c : Config) : Prop :=
  ¬ ((sourceWalk t cwd root c).visits.map fun v => (entryFor v.names v.node).name).Nodup

/-- The archive refuses something that is listed for it, for its name or for its size when it is
packed. -/
def Refused (t : Tree) (cwd root : Loc) (c : Config) : Prop :=
  Clash t cwd root c ∨ Overgrown (sourceWalk t cwd root c).fault (sourceWalk t cwd root c).visits

/-- How the archive says that it refuses something: it names an entry of which it had the name
already, or says where it noticed that something is too large. -/
def SaysRefused (t : Tree) (cwd root : Loc) (c : Config) (p : Path) (e : Zip.Error) : Prop :=
  (Clash t cwd root c ∧ ∃ v ∈ (sourceWalk t cwd root c).visits,
      p = c.sourceDir.descend v.names ∧ e = .duplicate (entryFor v.names v.node).name) ∨
    (Overgrown (sourceWalk t cwd root c).fault (sourceWalk t cwd root c).visits ∧
      (p = c.archivePath ∨
        ∃ v ∈ (sourceWalk t cwd root c).visits, p = c.sourceDir.descend v.names) ∧
      e = .io .tooLarge)

theorem SaysRefused.refused {p : Path} {e : Zip.Error} (h : SaysRefused t cwd root c p e) :
    Refused t cwd root c :=
  Or.imp And.left And.left h

/-- What came of compiling when cleaning had left `t`: it is decided by what the source is, by what
stands in the way of the walk of it, and by what is listed until then. -/
structure Verdict (t : Tree) (cwd root : Loc) (c : Config)
    (result : Except Task.Error Task.Outcome) : Prop where
  sourceNotFound : ∀ p, result = .error (.package (.sourceNotFound p)) ↔
    p = c.sourceDir ∧ t.stat cwd c.sourceDir = .error .notFound
  io : ∀ p e, result = .error (.package (.io p e)) ↔
    p = c.sourceDir ∧ e ≠ .notFound ∧ t.stat cwd c.sourceDir = .error e
  sourceNotDirectory : ∀ p, result = .error (.package (.sourceNotDirectory p)) ↔
    p = c.sourceDir ∧ ∃ node, node ≠ .dir ∧ t.stat cwd c.sourceDir = .ok node
  archive : (∃ p e, result = .error (.package (.archive p e))) ↔
    t.stat cwd c.sourceDir = .ok .dir ∧ Refused t cwd root c
  walk : (∃ p reason, result = .error (.package (.walk p reason))) ↔
    t.stat cwd c.sourceDir = .ok .dir ∧ ¬ Refused t cwd root c ∧
      ∃ names name, Obstructed t cwd root c names name
  success : (∃ outcome, result = .ok outcome) ↔
    t.stat cwd c.sourceDir = .ok .dir ∧ ¬ Refused t cwd root c ∧
      ∀ names name, ¬ Obstructed t cwd root c names name
  /-- A failure of the walk names the link that stood in the way. -/
  link : ∀ p reason, result = .error (.package (.walk p reason)) →
    ∃ names name, p = c.sourceDir.descend (names ++ [name]) ∧ Obstructed t cwd root c names name
  refusal : ∀ p e, result = .error (.package (.archive p e)) → SaysRefused t cwd root c p e
  not_hash : ∀ p e, result ≠ .error (.package (.hash p e))
  of_package : ∀ e, result = .error e → ∃ cause, e = .package cause

theorem perform_compile_result (host : Host) (options : RunOptions) (m : Machine) :
    ((Task.perform host c options .compile).exec m).1 =
      (((run host.cwd c).exec m.tree).1.mapError .package).map .compile := by
  rw [Task.perform, Act.exec_bind, Act.exec_onTree]
  cases ((run host.cwd c).exec m.tree).1 <;> rfl

/-- A source that is not a directory is found out first. -/
theorem run_of_checkSource {e : Error} (h : checkSource cwd c.sourceDir t = .error e) :
    ((run cwd c).exec t).1 = .error e := by
  have hcheck : (Edit.inspect (checkSource cwd c.sourceDir)).exec t = (.error e, t) := by
    rw [Edit.exec_inspect, h]
  unfold run
  rw [Edit.exec_bind_of_error hcheck]

theorem verdict_of_stat_error {e : OsError} (hstat : t.stat cwd c.sourceDir = .error e) :
    Verdict t cwd root c ((((run cwd c).exec t).1.mapError .package).map .compile) := by
  have hcheck : checkSource cwd c.sourceDir t =
      .error (if e = .notFound then .sourceNotFound c.sourceDir else .io c.sourceDir e) := by
    unfold checkSource
    simp only [hstat]
    split_ifs <;> rfl
  rw [run_of_checkSource hcheck]
  by_cases he : e = .notFound
  · subst he
    constructor <;> simp [hstat, Except.mapError, Except.map, eq_comm]
  · rw [if_neg he]
    constructor <;> simp [hstat, he, Except.mapError, Except.map, eq_comm]

theorem verdict_of_not_dir (hstat : t.stat cwd c.sourceDir = .ok node) (hnode : node ≠ .dir) :
    Verdict t cwd root c ((((run cwd c).exec t).1.mapError .package).map .compile) := by
  have hcheck : checkSource cwd c.sourceDir t = .error (.sourceNotDirectory c.sourceDir) := by
    unfold checkSource
    rw [hstat]
    cases node with
    | dir => exact absurd rfl hnode
    | file _ _ | link _ | device _ => rfl
  rw [run_of_checkSource hcheck]
  constructor <;> simp [hstat, hnode, Except.mapError, Except.map, eq_comm]

/-- A walk ends early exactly when something stands in its way, as long as paths are not too long.
-/
theorem fault_sourceWalk (hstat : (underway t root c).stat cwd c.sourceDir = .ok .dir)
    (hpaths : ∀ v ∈ (sourceWalk t cwd root c).visits,
      (c.sourceDir.descend v.names).bytes.length ≤ Tree.maxPathBytes) :
    ((sourceWalk t cwd root c).fault ≠ none ↔
        ∃ names name, Obstructed t cwd root c names name) ∧
      ∀ fault, (sourceWalk t cwd root c).fault = some fault →
        ∃ names name, Obstructed t cwd root c names name ∧ faultError c.sourceDir fault =
          .walk (c.sourceDir.descend (names ++ [name])) (fault.message c.sourceDir) := by
  obtain ⟨pos, hr, -⟩ := Tree.stat_eq_ok.mp hstat
  have hcheck : ∀ v ∈ (sourceWalk t cwd root c).visits,
      Tree.checkPath (c.sourceDir.descend v.names) = .ok ⟨⟩ := fun v hv =>
    Tree.checkPath_descend (Tree.resolve_ok hr).1 (valid_of_mem_archiveWalk hv) (hpaths v hv)
  refine ⟨Walk.fault_ofSource_iff hstat hcheck, fun fault hfault => ?_⟩
  obtain ⟨hopened, names, name, hnames, hobstacle⟩ := Walk.fault_ofSource hstat hcheck hfault
  refine ⟨names, name, hobstacle, ?_⟩
  rw [← hnames]
  cases fault with
  | unopened names e => exact absurd rfl (hopened names e)
  | unreachable _ _ | loop _ _ => rfl

/-- Where nothing that the walk lists is too large as it is, the archive refuses something, or the
walk decides. -/
theorem sourceFill_cases
    (hself : ∀ v ∈ (sourceWalk t cwd root c).visits,
      v.loc ≠ root ++ [("target" : Name)] ++ [(c.name ++ ".zip" : Name)])
    (hsized : ∀ v ∈ (sourceWalk t cwd root c).visits,
      v.node ≠ .device .full ∧ v.node.content.length ≤ Zip.maxSize) :
    (¬ Refused t cwd root c ∧ (sourceFill t cwd root c).2 =
        (sourceWalk t cwd root c).fault.map (faultError c.sourceDir)) ∨
      ∃ p e, SaysRefused t cwd root c p e ∧
        (sourceFill t cwd root c).2 = some (.archive p e) := by
  have hdistinct : Distinct [] (sourceWalk t cwd root c).visits ↔ ¬ Clash t cwd root c := by
    rw [Clash, not_not]
    exact ⟨Distinct.nodup, fun h => ⟨by simp, h⟩⟩
  rcases fill_of_sized c.sourceDir c.archivePath (sourceWalk t cwd root c).fault .empty hself
      hsized with
    ⟨hclash, hgrown, he⟩ | ⟨hclash, v, hv, he⟩ | ⟨hgrown, p, hp, he⟩
  · exact Or.inl ⟨not_or.mpr ⟨hdistinct.mp hclash, hgrown⟩, he⟩
  · exact Or.inr ⟨_, _, Or.inl ⟨not_not.mp (mt hdistinct.mpr hclash), v, hv, rfl, rfl⟩, he⟩
  · exact Or.inr ⟨_, _, Or.inr ⟨hgrown, hp, rfl⟩, he⟩

theorem verdict_of_isDir (hvalid : c.Valid) (hfits : Fits c) (hroot : c.root = root.path)
    (hdir : t.get? root = some .dir) (hnone : t.get? (root ++ [("target" : Name)]) = none)
    (htarget : Tree.checkPath c.targetDir = .ok ⟨⟩)
    (hpaths : ∀ v ∈ (sourceWalk t cwd root c).visits,
      (c.sourceDir.descend v.names).bytes.length ≤ Tree.maxPathBytes)
    (hself : ∀ v ∈ (sourceWalk t cwd root c).visits,
      v.loc ≠ root ++ [("target" : Name)] ++ [(c.name ++ ".zip" : Name)])
    (hsized : ∀ v ∈ (sourceWalk t cwd root c).visits,
      v.node ≠ .device .full ∧ v.node.content.length ≤ Zip.maxSize)
    (hstat : t.stat cwd c.sourceDir = .ok .dir) :
    Verdict t cwd root c ((((run cwd c).exec t).1.mapError .package).map .compile) := by
  obtain ⟨hends, hlink⟩ :=
    fault_sourceWalk (stat_underway hvalid hfits hdir hnone hstat) hpaths
  rcases sourceFill_cases hself hsized with ⟨htakes, hfill⟩ | ⟨q, cause, hrefusal, hfill⟩
  · cases hfault : (sourceWalk t cwd root c).fault with
    | none =>
      rw [hfault] at hfill
      obtain ⟨report, hrun⟩ := run_of_filled hvalid hfits hdir hnone hroot htarget hstat hfill
      have hfree : ∀ names name, ¬ Obstructed t cwd root c names name := fun names name h =>
        hends.mpr ⟨names, name, h⟩ hfault
      rw [hrun]
      constructor <;> simp [hstat, htakes, hfree, Except.mapError, Except.map]
    | some fault =>
      rw [hfault] at hfill
      obtain ⟨names, name, hobstructed, herror⟩ := hlink fault hfault
      have hblocked : ∃ names name, Obstructed t cwd root c names name := ⟨names, name, hobstructed⟩
      have hnot : ¬ ∀ names name, ¬ Obstructed t cwd root c names name := fun h =>
        h names name hobstructed
      rw [run_of_unfilled hvalid hfits hdir hnone hroot htarget hstat hfill, herror]
      constructor
      case link =>
        intro p reason hp
        obtain ⟨rfl, -⟩ := by simpa [Except.mapError, Except.map] using hp
        exact ⟨names, name, rfl, hobstructed⟩
      all_goals simp [hstat, htakes, hblocked, hnot, Except.mapError, Except.map]
  · rw [run_of_unfilled hvalid hfits hdir hnone hroot htarget hstat hfill]
    constructor
    case refusal =>
      intro p e hp
      obtain ⟨rfl, rfl⟩ := by simpa [Except.mapError, Except.map] using hp
      exact hrefusal
    all_goals simp [hstat, hrefusal.refused, Except.mapError, Except.map]

/-! ## After cleaning -/

section Clean

variable {cleaned : Clean.Report} (hdir : t.get? root = some .dir)
  (hroot : c.root = root.path) (h : (Clean.run cwd c false).exec t = (.ok cleaned, t'))

include hdir hroot h

/-- Cleaning leaves files as they are, if it leaves them. -/
theorem get?_of_get?_clean (hget : t'.get? l = some node) : t.get? l = some node := by
  obtain ⟨-, hview⟩ := Clean.run_ok hdir hroot h
  rw [← (hview l).2, hget]
  intro q hq hpre
  rw [(hview l).1 ⟨q, hq, hpre⟩] at hget
  cases hget

theorem checkPath_targetDir_of_clean : Tree.checkPath c.targetDir = .ok ⟨⟩ :=
  (Clean.passable_of_run_ok hdir hroot h).target [Config.targetName]
    (Clean.mem_targets.mpr (Or.inl ⟨Config.targetName, by decide, rfl⟩))

/-- What the walk finds was there before cleaning, so it is no larger than that. -/
theorem length_le_of_mem_sourceWalk (hvalid : c.Valid) (hfits : Fits c)
    (hsmall : ∀ l content mode, t.get? l = some (.file content mode) → content.length < 2 ^ 32)
    (hspared : ∀ v ∈ (sourceWalk t' cwd root c).visits, ¬ root ++ [("target" : Name)] <+: v.loc) :
    ∀ v ∈ (sourceWalk t' cwd root c).visits, v.node.content.length ≤ Zip.maxSize := by
  obtain ⟨hdir', hnone⟩ := get?_of_clean_ok hdir hroot h
  intro v hv
  have houtside {l : Loc} (hl : root ++ [("target" : Name)] <+: l) : v.loc ≠ l := fun he =>
    hspared v hv (he ▸ hl)
  rcases (Walk.listed_of_mem_ofSource hv).found with hget | hempty
  · rw [get?_underway hvalid hfits hdir' hnone, if_neg (houtside (List.prefix_append _ _)),
      if_neg (houtside List.prefix_rfl)] at hget
    cases hnode : v.node with
    | file content mode =>
      rw [hnode] at hget
      exact Nat.le_of_lt_succ (hsmall _ _ _ (get?_of_get?_clean hdir hroot h hget))
    | dir | link _ | device _ => exact Nat.zero_le _
  · rw [hempty]
    exact Nat.zero_le _

end Clean

variable {dir path : Path} {env : Environment} {given : Config.Overrides} {host : Host}
  {options : RunOptions} {cleaned : Clean.Report} {log : List Event}

/-- **When compiling fails after cleaning**, where no name, path or file is too long and the walk
does not come into the target directory: the source decides, a link in the way of the walk, and what
is listed until then, as `Verdict` says. All that is listed is below the source, and where its names
are texts, they are different. -/
theorem compile_after_clean (hload : Config.load t cwd env dir given = .ok c)
    (hroot : t.canonicalize cwd dir = .ok (root, path))
    (hclean : (Clean.run host.cwd c false).exec t = (.ok cleaned, t')) (hfits : Fits c)
    (hsmall : ∀ l content mode, t.get? l = some (.file content mode) → content.length < 2 ^ 32)
    (hends : ∀ v ∈ (sourceWalk t' host.cwd root c).visits, v.node ≠ .device .full)
    (hpaths : ∀ v ∈ (sourceWalk t' host.cwd root c).visits,
      (c.sourceDir.descend v.names).bytes.length ≤ Tree.maxPathBytes)
    (hspared : ∀ v ∈ (sourceWalk t' host.cwd root c).visits,
      ¬ root ++ [("target" : Name)] <+: v.loc) :
    Verdict t' host.cwd root c ((Task.perform host c options .compile).exec ⟨t', log⟩).1 ∧
      (∀ v ∈ (sourceWalk t' host.cwd root c).visits,
        Path.strip? c.sourceDir (c.sourceDir.descend v.names) = some ⟨joinSlash v.names⟩) ∧
      ((∀ v ∈ (sourceWalk t' host.cwd root c).visits, ∀ n ∈ v.names, ∃ s : String, n = s) →
        ¬ Clash t' host.cwd root c) := by
  have hspelled := Config.root_of_load hload hroot
  obtain ⟨hvalid, -⟩ := Config.load_ok hload
  obtain ⟨-, node, hget, hlink⟩ := Tree.canonicalize_ok hroot
  obtain rfl : node = .dir := Clean.isDir_of_run_ok hget hlink hspelled hclean
  obtain ⟨hdir, hnone⟩ := get?_of_clean_ok hget hspelled hclean
  have htarget := checkPath_targetDir_of_clean hget hspelled hclean
  refine ⟨?_, fun v hv => strip?_descend (valid_of_mem_archiveWalk hv),
    fun htexts hclash => hclash (nodup_of_texts htexts)⟩
  rw [perform_compile_result]
  cases hstat : t'.stat host.cwd c.sourceDir with
  | error e => exact verdict_of_stat_error hstat
  | ok node =>
    by_cases hnode : node = .dir
    · subst hnode
      have hself : ∀ v ∈ (sourceWalk t' host.cwd root c).visits,
          v.loc ≠ root ++ [("target" : Name)] ++ [(c.name ++ ".zip" : Name)] := fun v hv he =>
        hspared v hv (he ▸ List.prefix_append _ _)
      have hsizes := length_le_of_mem_sourceWalk hget hspelled hclean hvalid hfits hsmall hspared
      exact verdict_of_isDir hvalid hfits hspelled hdir hnone htarget hpaths hself
        (fun v hv => ⟨hends v hv, hsizes v hv⟩) hstat
    · exact verdict_of_not_dir hstat hnode

/-- The files of a tree are small, if none of its entries holds too much. -/
theorem small_of_entries (h : ∀ e ∈ t.entries, e.2.content.length < 2 ^ 32) :
    ∀ l content mode, t.get? l = some (.file content mode) → content.length < 2 ^ 32 := by
  intro l content mode hget
  have hl : l ≠ [] := by
    rintro rfl
    rw [Tree.get?_nil] at hget
    cases hget
  exact h _ (Tree.mem_of_get? hget hl)

/-- A project whose source is a link to a directory, in which there is a link back to itself under
the name of a compiled file. -/
def looped : Tree :=
  Tree.placeAll [] [.file ⟨"/lib/a.py"⟩ [1] 0o644, .link ⟨"/lib/up.pyc"⟩ ⟨"."⟩,
    .link ⟨"/p/src"⟩ ⟨"../lib"⟩, .file ⟨"/p/target/templates"⟩ [2] 0o755] Tree.empty

/-- What cleaning leaves of it. -/
def loopedClean : Tree := ((Clean.run [] (Config.withRoot ⟨"/p"⟩) false).exec looped).2

set_option maxRecDepth 100000 in
theorem compile_after_clean_looped :
    ∃ cleaned, Config.load looped [] [] ⟨"/p"⟩ .none = .ok (Config.withRoot ⟨"/p"⟩) ∧
      looped.canonicalize [] ⟨"/p"⟩ = .ok (["p"], ⟨"/p"⟩) ∧
      (Clean.run bareHost.cwd (Config.withRoot ⟨"/p"⟩) false).exec looped =
        (.ok cleaned, loopedClean) ∧
      Fits (Config.withRoot ⟨"/p"⟩) ∧
      (∀ l content mode, looped.get? l = some (.file content mode) → content.length < 2 ^ 32) ∧
      (∀ v ∈ (sourceWalk loopedClean bareHost.cwd ["p"] (Config.withRoot ⟨"/p"⟩)).visits,
        v.node ≠ .device .full ∧
        ((Config.withRoot ⟨"/p"⟩).sourceDir.descend v.names).bytes.length ≤ Tree.maxPathBytes ∧
          ¬ (["p", "target"] : Loc) <+: v.loc) ∧
      ((Task.perform bareHost (Config.withRoot ⟨"/p"⟩) ⟨false, []⟩ .compile).exec
          ⟨loopedClean, []⟩).1 = .error (.package (.walk ⟨"/p/src/up.pyc"⟩
            "File system loop found: /p/src/up.pyc points to an ancestor /p/src")) ∧
      Verdict loopedClean bareHost.cwd ["p"] (Config.withRoot ⟨"/p"⟩)
        ((Task.perform bareHost (Config.withRoot ⟨"/p"⟩) ⟨false, []⟩ .compile).exec
          ⟨loopedClean, []⟩).1 := by
  have hload : Config.load looped [] [] ⟨"/p"⟩ .none = .ok (Config.withRoot ⟨"/p"⟩) := by
    decide +kernel
  have hroot : looped.canonicalize [] ⟨"/p"⟩ = .ok (["p"], ⟨"/p"⟩) := by decide +kernel
  have hclean : ((Clean.run [] (Config.withRoot ⟨"/p"⟩) false).exec looped).1.isOk = true := by
    decide +kernel
  have hfits : Fits (Config.withRoot ⟨"/p"⟩) :=
    ⟨by decide +kernel, by decide +kernel, by decide +kernel⟩
  have hsmall := small_of_entries (t := looped) (by decide +kernel)
  have hwalk : ∀ v ∈ (sourceWalk loopedClean [] ["p"] (Config.withRoot ⟨"/p"⟩)).visits,
      v.node ≠ .device .full ∧
      ((Config.withRoot ⟨"/p"⟩).sourceDir.descend v.names).bytes.length ≤ Tree.maxPathBytes ∧
        ¬ (["p", "target"] : Loc) <+: v.loc := by
    decide +kernel
  have hrun : ((Task.perform bareHost (Config.withRoot ⟨"/p"⟩) ⟨false, []⟩ .compile).exec
      ⟨loopedClean, []⟩).1 = .error (.package (.walk ⟨"/p/src/up.pyc"⟩
        "File system loop found: /p/src/up.pyc points to an ancestor /p/src")) := by
    decide +kernel
  generalize hafter : (Clean.run [] (Config.withRoot ⟨"/p"⟩) false).exec looped = after at hclean
  obtain ⟨_ | cleaned, t'⟩ := after
  · cases hclean
  obtain rfl : loopedClean = t' := congrArg Prod.snd hafter
  exact ⟨cleaned, hload, hroot, hafter, hfits, hsmall, hwalk, hrun,
    And.left (compile_after_clean hload hroot hafter hfits hsmall (fun v hv => (hwalk v hv).1)
      (fun v hv => (hwalk v hv).2.1) fun v hv => (hwalk v hv).2.2)⟩

/-- The path of a module whose name, without its ending, is one byte. -/
def strayModule (b : UInt8) : Path := Path.child ⟨"/p/src"⟩ (b :: ".py")

/-- A project in which the names of two modules are shown alike. -/
def clashing : Tree :=
  Tree.placeAll [] [.file (strayModule 0xfe) [1] 0o644, .file (strayModule 0xff) [2] 0o644]
    Tree.empty

set_option maxRecDepth 100000 in
/-- No link is in the way, no file is large, and yet compiling fails: the archive does not take the
second module, which would have the name of the first one. -/
theorem clashing_names_are_refused :
    Config.load clashing [] [] ⟨"/p"⟩ .none = .ok (Config.withRoot ⟨"/p"⟩) ∧
      (Clean.run [] (Config.withRoot ⟨"/p"⟩) false).exec clashing =
        (.ok ⟨[], 0, false⟩, clashing) ∧
      Fits (Config.withRoot ⟨"/p"⟩) ∧
      (∀ l content mode, clashing.get? l = some (.file content mode) → content.length < 2 ^ 32) ∧
      (∀ v ∈ (sourceWalk clashing [] ["p"] (Config.withRoot ⟨"/p"⟩)).visits,
        v.node ≠ .device .full ∧
        ((Config.withRoot ⟨"/p"⟩).sourceDir.descend v.names).bytes.length ≤ Tree.maxPathBytes ∧
          ¬ (["p", "target"] : Loc) <+: v.loc) ∧
      (sourceWalk clashing [] ["p"] (Config.withRoot ⟨"/p"⟩)).fault = none ∧
      ((Task.perform bareHost (Config.withRoot ⟨"/p"⟩) ⟨false, []⟩ .compile).exec
        ⟨clashing, []⟩).1 = .error (.package (.archive (strayModule 0xff)
          (.duplicate "\uFFFD.py"))) := by
  have hclean : ((Clean.run [] (Config.withRoot ⟨"/p"⟩) false).exec clashing).1 =
        .ok ⟨[], 0, false⟩ ∧
      ((Clean.run [] (Config.withRoot ⟨"/p"⟩) false).exec clashing).2.entries =
        clashing.entries := by
    decide +kernel
  refine ⟨by decide +kernel, Prod.ext hclean.1 (Tree.ext_entries hclean.2),
    ⟨by decide +kernel, by decide +kernel, by decide +kernel⟩, small_of_entries (by decide +kernel),
    by decide +kernel, by decide +kernel, by decide +kernel⟩

end Zipship.Package
