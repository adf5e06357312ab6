import Zipship.Proofs.Package.Artifact
import Zipship.Proofs.Tree.Confined
import Zipship.Proofs.Tree.Invariant

/-!
# What packaging never touches

Packaging creates, writes, marks and removes files by paths that are made from a configured name.
A valid name is one entry of the target directory, so in a project whose target directory has no
links in it all of this happens there, however far packaging comes (`run_keeps_inTarget`).
-/

namespace Zipship.Package

variable {t t' : Tree} {cwd root : Loc} {c : Config} {n : Name} {p : Path}

/-- A tree that differs from `t` only in the target directory of a project, where it has no links.
-/
abbrev InTarget (t : Tree) (root : Loc) (t' : Tree) : Prop :=
  Tree.Confined t (root ++ [("target" : Name)]) t'

theorem keeps_write {place : Loc} {content : Bytes}
    (hplace : root ++ [("target" : Name)] <+: place) :
    Edit.Keeps (InTarget t root) (Edit.step (Tree.write place content)) fun _ => True :=
  Edit.keeps_step fun _ _ _ h hwrite => ⟨h.write hplace hwrite, trivial⟩

section Steps

variable (hvalid : c.Valid) (hroot : c.root = root.path) (hdir : t.get? root = some .dir)

include hdir

theorem InTarget.get?_root (h : InTarget t root t') : t'.get? root = some .dir := by
  rw [h.get?_above, hdir]

theorem InTarget.straight (h : InTarget t root t') (hn : n.IsEntry) :
    t'.Straight (root ++ [("target" : Name)] ++ [n]) := by
  have hway : t'.Straight root := .of_get? (h.get?_root hdir) (by simp)
  have htarget : t'.Straight (root ++ [("target" : Name)]) :=
    hway.snoc (Name.isEntry_of_valid (by decide)) (h.unlinked _ List.prefix_rfl)
  exact htarget.snoc hn (h.unlinked _ (List.prefix_append _ [n]))

/-- A file whose path spells an entry of the target directory is created there. -/
theorem keeps_create (hn : n.IsEntry) (hp : p.Spells (root ++ [("target" : Name)] ++ [n])) :
    Edit.Keeps (InTarget t root) (Edit.step (Tree.create cwd p)) fun place =>
      root ++ [("target" : Name)] <+: place := by
  refine Edit.keeps_step fun _ place _ h hcreate => ?_
  have hplace : root ++ [("target" : Name)] <+: place :=
    (h.straight hdir hn).eq_of_create hp hcreate ▸ List.prefix_append _ [n]
  exact ⟨h.create hplace hcreate, hplace⟩

include hroot

theorem keeps_makeDirAll :
    Edit.Keeps (InTarget t root) (Tree.makeDirAll cwd c.targetDir) fun _ => True := fun _ h =>
  ⟨h.makeDirAll (targetDir_spells hroot hdir) (Name.isEntry_of_valid (by decide))
    (h.get?_root hdir), fun _ _ => trivial⟩

include hvalid

/-- The archive is written in the target directory, if at all. -/
theorem keeps_writeArchive {source exclude : Path} :
    Edit.Keeps (InTarget t root) (writeArchive cwd source c.archivePath exclude) fun _ => True := by
  have hspell := archivePath_spells hvalid hroot hdir
  unfold writeArchive
  refine (keeps_create hdir hvalid.archiveName_isEntry hspell).onError.bind fun place hplace => ?_
  refine Edit.keeps_get.bind fun _ _ => ?_
  refine (keeps_write hplace).onError.bind fun _ _ => ?_
  split
  · exact Edit.keeps_throw
  · exact Edit.keeps_pure trivial

/-- The artifact is written in the target directory, if at all. -/
theorem keeps_writeArtifact {line : String} {archive : Path} :
    Edit.Keeps (InTarget t root) (writeArtifact cwd line archive c.artifactPath) fun _ => True := by
  have hspell := artifactPath_spells hvalid hroot hdir
  unfold writeArtifact
  refine (keeps_create hdir hvalid.name_isEntry hspell).onError.bind fun place hplace => ?_
  refine Edit.Keeps.bind (Edit.keeps_inspect fun _ _ _ _ => trivial) fun _ _ => ?_
  exact (keeps_write hplace).onError

theorem keeps_setMode {mode : Nat} :
    Edit.Keeps (InTarget t root) (Edit.step (Tree.setMode cwd c.artifactPath mode))
      fun _ => True := by
  refine Edit.keeps_step fun _ _ _ h hset => ⟨h.setMode (fun pos hresolve => ?_) hset, trivial⟩
  rw [(h.straight hdir hvalid.name_isEntry).loc_of_resolve
    (artifactPath_spells hvalid hroot hdir) hresolve]
  exact List.prefix_append _ _

/-- The archive is removed from the target directory, if at all. -/
theorem keeps_removeFile :
    Edit.Keeps (InTarget t root) (removeFile cwd c.archivePath) fun _ => True := by
  have hstep : Edit.Keeps (InTarget t root) (Edit.step (Tree.removeFile cwd c.archivePath))
      fun _ => True := by
    refine Edit.keeps_step fun t' _ _ h hremove => ⟨h.removeFile (by simp) ?_ hremove, trivial⟩
    intro k hlocate
    have hentry := hvalid.archiveName_isEntry
    have hway : t'.Straight (root ++ [("target" : Name)]) := (h.straight hdir hentry).above
    rw [hway.eq_of_locate (archivePath_spells hvalid hroot hdir) hentry hlocate]
    exact List.prefix_append _ _
  unfold removeFile
  refine Edit.keeps_get.bind fun now _ => ?_
  cases now.locate cwd c.archivePath with
  | error e =>
    by_cases he : e = .notFound
    · simp only [he, if_true]
      exact Edit.keeps_pure trivial
    · simp only [if_neg he]
      exact Edit.keeps_throw
  | ok _ => exact hstep.onError

/-- **Packaging changes nothing outside of the target directory**, however it ends, if there are no
links in that directory. -/
theorem run_keeps_inTarget :
    Edit.Keeps (InTarget t root) (run cwd c) fun _ => True := by
  unfold run
  refine Edit.Keeps.bind (Edit.keeps_inspect fun _ _ _ _ => trivial) fun _ _ => ?_
  refine (keeps_makeDirAll hroot hdir).onError.bind fun _ _ => ?_
  refine (keeps_writeArchive hvalid hroot hdir).bind fun _ _ => ?_
  refine (keeps_writeArtifact hvalid hroot hdir).bind fun _ _ => ?_
  refine (keeps_setMode hvalid hroot hdir).onError.bind fun _ _ => ?_
  refine (keeps_removeFile hvalid hroot hdir).bind fun _ _ => ?_
  refine Edit.Keeps.bind (Edit.keeps_inspect fun _ _ _ _ => trivial) fun _ _ => ?_
  refine Edit.Keeps.bind (Edit.keeps_inspect fun _ _ _ _ => trivial) fun _ _ => ?_
  exact Edit.keeps_pure trivial

end Steps

end Zipship.Package
