import Zipship.Config.Layers
import Zipship.Proofs.Text.Encoding
import Zipship.Proofs.Tree.Edit

/-!
# What validity means for names and texts

The checks of a configuration let through only what the rest relies on: the name, and with an ending
the name of the archive, is one entry of the target directory (`Valid.name_isEntry`,
`Valid.archiveName_isEntry`), and the interpreter has no line end in it (`Valid.no_newline`). So
whatever the root is called, what is written goes to two different entries of the target directory
(`outputs_in_target`). A configuration that was loaded passed the checks, and its root is a location
as it is spelled without detours (`load_ok`).
-/

namespace Zipship.Config

variable {c : Config}

/-! ## What was checked -/

/-- The checks that a valid configuration passed, about its name and its interpreter. -/
theorem Valid.checks (h : c.Valid) : Text.blank c.name = false ∧ isNotFileName c.name = false ∧
    hasAny ['\n', '\r'] c.python = false := by
  unfold Valid fault? at h
  split_ifs at h with h1 h2 h3 h4
  simp_all

theorem hasAny_eq_false {cs : List Char} {s : String} (h : hasAny cs s = false) :
    ∀ c ∈ cs, c ∉ s.toList := by
  intro c hc hmem
  have hany : hasAny cs s = true :=
    List.any_eq_true.mpr ⟨c, hmem, by simpa using hc⟩
  rw [h] at hany
  cases hany

theorem Valid.no_newline (h : c.Valid) : '\n' ∉ c.python.toList :=
  hasAny_eq_false h.checks.2.2 _ (by simp)

theorem Valid.no_slash (h : c.Valid) : '/' ∉ c.name.toList := by
  have hname := h.checks.2.1
  unfold isNotFileName at hname
  simp only [Bool.or_eq_false_iff] at hname
  exact hasAny_eq_false hname.2 _ (by simp)

theorem slash_notMem_ofString {s : String} (h : '/' ∉ s.toList) : slash ∉ Bytes.ofString s :=
  fun hmem => h ((Bytes.mem_ofString_iff (c := '/') (by decide)).mp hmem)

/-- The artifact is an entry of the target directory. -/
theorem Valid.name_isEntry (h : c.Valid) : Name.IsEntry c.name := by
  obtain ⟨hblank, hname, -⟩ := h.checks
  unfold isNotFileName at hname
  simp only [Bool.or_eq_false_iff, decide_eq_false_iff_not] at hname
  refine ⟨⟨?_, slash_notMem_ofString h.no_slash⟩, ?_, ?_⟩
  · intro he
    rw [Bytes.ofString_eq_nil_iff.mp he] at hblank
    revert hblank
    decide
  · intro he
    rw [Bytes.ofString_inj.mp he] at hname
    exact hname.1.1 (by decide)
  · intro he
    rw [Bytes.ofString_inj.mp he] at hname
    exact hname.1.2 (by decide)

/-- The archive is an entry of the target directory. -/
theorem Valid.archiveName_isEntry (h : c.Valid) : Name.IsEntry (c.name ++ ".zip") := by
  have hlen : (c.name ++ ".zip" : Bytes).length = (c.name : Bytes).length + 4 :=
    List.length_append
  refine ⟨⟨?_, ?_⟩, ?_, ?_⟩
  · intro he
    rw [he] at hlen
    simp at hlen
  · rw [List.mem_append, not_or]
    exact ⟨slash_notMem_ofString h.no_slash, by decide⟩
  · intro he
    rw [he] at hlen
    have hhere : Name.here.length = 1 := by decide
    omega
  · intro he
    rw [he] at hlen
    have hup : Name.up.length = 2 := by decide
    omega

/-! ## The target directory -/

theorem targetName_isPiece : targetName.IsPiece := ⟨by decide, by decide⟩

theorem bytes_targetDir_ne (c : Config) : c.targetDir.bytes ≠ [] :=
  Path.bytes_child_ne targetName_isPiece

theorem endsWithSlash_targetDir (c : Config) : c.targetDir.endsWithSlash = false :=
  Path.endsWithSlash_child targetName_isPiece

/-- **A valid name does not lead out of the target directory**, nor deeper into it. Whatever the
root, the paths of the artifact and of the archive are different, and each goes to one entry of the
target directory: the name as it was configured, and the name with the ending of an archive. -/
theorem outputs_in_target (h : c.Valid) : c.artifactPath.same c.archivePath = false ∧
    c.artifactPath.IsEntryOf c.targetDir c.name ∧
    c.archivePath.IsEntryOf c.targetDir (c.name ++ ".zip") := by
  have hne := bytes_targetDir_ne c
  have hslash := endsWithSlash_targetDir c
  have hartifact := Path.isEntryOf_child h.name_isEntry hne hslash
  have harchive := Path.isEntryOf_child h.archiveName_isEntry hne hslash
  refine ⟨?_, hartifact, harchive⟩
  rw [Path.same, artifactPath, archivePath, hartifact.components, harchive.components]
  refine decide_eq_false fun heq => ?_
  have hname : Component.name c.name = .name (c.name ++ ".zip") :=
    List.singleton_inj.mp (List.append_cancel_left heq)
  have hlength := congrArg List.length (Component.name.inj hname)
  rw [List.length_append] at hlength
  have hending : (".zip" : Bytes).length = 4 := by decide
  omega

/-- A configuration of which the name is blanks, dots and characters that steer a terminal, at a
root that is spelled with detours. -/
def oddlyNamed : Config := { Config.default with root := ⟨"..//p/./"⟩, name := "\t.\x1b .. \x00. " }

theorem outputs_in_target_oddly : oddlyNamed.Valid ∧
    oddlyNamed.artifactPath.same oddlyNamed.archivePath = false ∧
    oddlyNamed.artifactPath.bytes = "..//p/./target/\t.\x1b .. \x00. " ∧
    Path.strip? oddlyNamed.targetDir oddlyNamed.archivePath = some ⟨"\t.\x1b .. \x00. .zip"⟩ := by
  have hvalid : oddlyNamed.Valid := by decide +kernel
  obtain ⟨hdifferent, hartifact, harchive⟩ := outputs_in_target hvalid
  exact ⟨hvalid, hdifferent, hartifact.bytes, harchive.rest⟩

/-! ## What was loaded -/

section Loading

variable {t : Tree} {cwd root : Loc} {env : Environment} {dir path : Path} {given : Overrides}

/-- What was loaded is valid, and its root is the canonical spelling of the directory. -/
theorem load_canonical (h : load t cwd env dir given = .ok c) :
    c.Valid ∧ ∃ root, t.canonicalize cwd dir = .ok (root, c.root) := by
  unfold load at h
  obtain ⟨⟨root, path⟩, hcanonical, h⟩ := bind_eq_ok.mp h
  obtain ⟨file, -, h⟩ := bind_eq_ok.mp h
  simp only at h
  split at h
  · cases h
  · rename_i hfault
    cases h
    exact ⟨hfault, root, mapError_eq_ok hcanonical⟩

/-- What was loaded is valid, and its root is where the directory is. -/
theorem load_ok (h : load t cwd env dir given = .ok c) :
    c.Valid ∧ ∃ root node, t.get? root = some node ∧ (∀ target, node ≠ .link target) ∧
      c.root = root.path := by
  obtain ⟨hvalid, root, hcanonical⟩ := load_canonical h
  obtain ⟨hpath, node, hget, hlink⟩ := Tree.canonicalize_ok hcanonical
  exact ⟨hvalid, root, node, hget, hlink, hpath⟩

theorem root_of_load (h : load t cwd env dir given = .ok c)
    (hroot : t.canonicalize cwd dir = .ok (root, path)) : c.root = root.path := by
  obtain ⟨-, found, hfound⟩ := load_canonical h
  rw [hroot] at hfound
  obtain ⟨rfl, rfl⟩ := Prod.mk.inj (Except.ok.inj hfound)
  exact (Tree.canonicalize_ok hroot).1

end Loading

end Zipship.Config
