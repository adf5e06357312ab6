import Zipship.Package.Archive
import Zipship.Proofs.Path.Spelling
import Zipship.Proofs.Text.Encoding

/-!
# The entries of an archive

`entryFor` is the entry for what names lead to, and `Describes` says what that is without building
it. The name of an entry is text: what is shown of the names that lead to it, with slashes between
them. Nothing that is shown has a slash of its own, so the names that are shown are found in the
name of the entry again (`pieces_entryFor`).
-/

namespace Zipship

/-- What is shown of a piece of a path is a piece of a path. -/
theorem Name.IsPiece.shown {n : Name} (h : n.IsPiece) : Name.IsPiece n.shown where
  ne_empty he := h.ne_empty (Bytes.shown_eq_empty_iff.mp (Bytes.ofString_eq_nil_iff.mp he))
  no_slash hmem := by
    have hchar : '/' ∈ n.shown.toList := (Bytes.mem_ofString_iff (c := '/') (by decide)).mp hmem
    exact h.no_slash (Bytes.mem_of_mem_shown hchar (by decide) slash (by decide))

namespace Zip

variable {above texts : List String} {s : String}

theorem ofString_joinNames : ∀ texts : List String,
    (joinNames texts : Bytes) = joinSlash (texts.map Bytes.ofString)
  | [] | [_] => by simp [joinNames, joinSlash, Bytes.ofString]
  | s :: s' :: texts => by
    have ih := ofString_joinNames (s' :: texts)
    simp only [joinNames, joinSlash, List.map_cons, String.intercalate_cons_cons,
      List.intercalate_cons_cons, Bytes.ofString_append] at ih ⊢
    rw [ih]
    rfl

/-- The pieces of joined texts are those texts. -/
theorem pieces_joinNames (h : ∀ s ∈ texts, Name.IsPiece (s : Bytes)) :
    Path.pieces ⟨joinNames texts⟩ = texts.map Bytes.ofString := by
  have hspells : (Loc.path (texts.map Bytes.ofString)).Spells (texts.map Bytes.ofString) :=
    Loc.spells_path (by simpa using h)
  have hpath : Loc.path (texts.map Bytes.ofString) = ⟨slash :: (joinNames texts : Bytes)⟩ := by
    rw [ofString_joinNames]
    simp [Loc.path, Path.ofComponents, Function.comp_def, Component.bytes]
  have hpieces : Path.pieces ⟨slash :: (joinNames texts : Bytes)⟩ =
      Path.pieces ⟨joinNames texts⟩ := by simp [Path.pieces, splitSlash]
  rw [← hpieces, ← hpath]
  exact hspells.pieces

/-- The last text ends the joined texts. -/
theorem getLast?_joinNames (hs : s ≠ "") :
    (joinNames (above ++ [s])).toList.getLast? = s.toList.getLast? := by
  unfold joinNames
  by_cases habove : above = []
  · simp [habove]
  · have hne : s.toList ≠ [] := mt String.toList_eq_nil_iff.mp hs
    rw [String.intercalate_append_of_ne_nil habove (by simp), String.toList_append,
      List.getLast?_append, String.intercalate_singleton, List.getLast?_eq_some_getLast hne,
      Option.some_or]

end Zip

namespace Package

variable {names : List Name} {node : Node}

/-! ## Names -/

/-- The names of an entry are pieces of a path. -/
theorem isPiece_entryNames (hvalid : ∀ n ∈ names, n.valid = true) :
    ∀ s ∈ entryNames names, Name.IsPiece (s : Bytes) := by
  intro s hs
  obtain ⟨n, hn, rfl⟩ := List.mem_map.mp hs
  exact (Name.isEntry_of_valid (hvalid n hn)).toIsPiece.shown

/-- Names that are texts are shown as they are. -/
theorem ofString_entryNames (htexts : ∀ n ∈ names, ∃ s : String, n = s) :
    (entryNames names).map Bytes.ofString = names := by
  rw [entryNames, List.map_map]
  conv_rhs => rw [← List.map_id names]
  refine List.map_congr_left fun n hn => ?_
  obtain ⟨s, rfl⟩ := htexts n hn
  exact congrArg Bytes.ofString (Bytes.shown_ofString s)

/-- A slash ends the name of a directory's entry, unless a backslash does. -/
theorem directoryName_eq (hne : names ≠ []) (hvalid : ∀ n ∈ names, n.valid = true) :
    Zip.directoryName (entryNames names) =
      if (Zip.joinNames (entryNames names)).toList.getLast? = some '\\' then
        Zip.joinNames (entryNames names)
      else Zip.joinNames (entryNames names) ++ "/" := by
  obtain ⟨above, n, rfl⟩ : ∃ above n, names = above ++ [n] :=
    ⟨_, _, (List.dropLast_concat_getLast hne).symm⟩
  have hn := (Name.isEntry_of_valid (hvalid n (by simp))).toIsPiece
  have hshown : n.shown ≠ "" := mt Bytes.shown_eq_empty_iff.mp hn.ne_empty
  have hnames : entryNames (above ++ [n]) = entryNames above ++ [n.shown] := by simp [entryNames]
  have hslash : n.shown.toList.getLast? ≠ some '/' := fun h =>
    hn.shown.no_slash ((Bytes.mem_ofString_iff (c := '/') (by decide)).mpr
      (List.mem_of_getLast? h))
  unfold Zip.directoryName
  rw [hnames]
  simp only [Zip.getLast?_joinNames hshown, hslash, false_or]

/-- Only the name of the module that an interpreter starts with is shown as the entry's. -/
theorem joinNames_eq_entryPoint_iff (hvalid : ∀ n ∈ names, n.valid = true) :
    Zip.joinNames (entryNames names) = entryPoint ↔
      names = (["__main__.py"] : List Name) := by
  constructor
  · intro h
    have hpieces := Zip.pieces_joinNames (isPiece_entryNames hvalid)
    have hpoint : Path.pieces ⟨entryPoint⟩ = [(entryPoint : Bytes)] := by decide +kernel
    rw [h, hpoint, entryNames, List.map_map] at hpieces
    obtain ⟨n, rfl, hn⟩ := List.map_eq_singleton_iff.mp hpieces.symm
    have hshown : n.shown = entryPoint := Bytes.ofString_inj.mp hn
    have hnone : Bytes.replacement ∉ n.shown.toList := by
      rw [hshown]
      decide
    rw [← Bytes.ofString_shown hnone, hshown]
    rfl
  · rintro rfl
    simp [entryNames, Zip.joinNames, entryPoint]

/-- A slash at the end adds no piece. -/
theorem pieces_slash (bs : Bytes) : Path.pieces ⟨bs ++ [slash]⟩ = Path.pieces ⟨bs⟩ := by
  have hcut := splitSlash_append bs []
  simp [Path.pieces, hcut, splitSlash]

/-! ## Entries -/

/-- The entry for what names lead to. -/
def entryFor (names : List Name) : Node → Zip.Entry
  | .dir => ⟨Zip.directoryName (entryNames names), .directory⟩
  | node => ⟨Zip.joinNames (entryNames names), .file node.content node.isExecutable⟩

/-- The name of an entry is made of what is shown of the names that lead to it. -/
theorem pieces_entryFor (hvalid : ∀ n ∈ names, n.valid = true) :
    Path.pieces ⟨(entryFor names node).name⟩ = (entryNames names).map Bytes.ofString := by
  have hjoined := Zip.pieces_joinNames (isPiece_entryNames hvalid)
  cases node with
  | file _ _ | link _ | device _ => exact hjoined
  | dir =>
    show Path.pieces ⟨Zip.directoryName (entryNames names)⟩ = _
    unfold Zip.directoryName
    simp only
    split_ifs
    · exact hjoined
    · rw [Bytes.ofString_append]
      exact (pieces_slash _).trans hjoined

theorem content_entryFor : (entryFor names node).body.content = node.content := by
  cases node <;> rfl

/-- An entry of an archive is that of `node`, which `names` lead to. -/
structure Describes (entry : Zip.Entry) (names : List Name) (node : Node) : Prop where
  /-- A directory's entry is stored, and holds nothing. -/
  directory : node = .dir → entry.body.mode = 0o040755 ∧ entry.body.method = 0 ∧
    entry.body.content = [] ∧ entry.body.packed = []
  /-- A slash ends the name of a directory's entry, unless a backslash does. -/
  directoryName : node = .dir → entry.name =
    let shown := String.intercalate "/" (names.map Bytes.shown)
    if shown.toList.getLast? = some '\\' then shown else shown ++ "/"
  /-- Anything else is compressed, under what is shown of its names with slashes in between. -/
  file : node ≠ .dir → entry.name = String.intercalate "/" (names.map Bytes.shown) ∧
    entry.body.method = 8 ∧ entry.body.content = node.content ∧
    entry.body.packed = Deflate.compress node.content
  /-- It may be run if somebody may run the file. -/
  mode : ∀ content bits, node = .file content bits → entry.body.mode =
    if bits.testBit 6 ∨ bits.testBit 3 ∨ bits.testBit 0 then 0o100755 else 0o100644

/-- The execute bits of a mode are the bits 6, 3 and 0. -/
theorem isExecutable_iff {content : Bytes} {bits : Nat} :
    (Node.file content bits).isExecutable = true ↔
      bits.testBit 6 ∨ bits.testBit 3 ∨ bits.testBit 0 := by
  have hmask (i : Nat) : (bits &&& Node.executeBits).testBit i =
      (bits.testBit i && Nat.testBit 0o111 i) := Nat.testBit_and ..
  have hand : (Node.file content bits).isExecutable = true ↔ bits &&& Node.executeBits ≠ 0 :=
    decide_eq_true_iff
  rw [hand]
  constructor
  · intro hne
    obtain ⟨i, hi⟩ := Nat.exists_testBit_of_ne_zero hne
    rw [hmask, Bool.and_eq_true] at hi
    obtain ⟨hbit, hexec⟩ := hi
    have hlt : i < 7 := by
      by_contra hge
      have hbound : 0o111 < 2 ^ i :=
        Nat.lt_of_lt_of_le (by decide) (Nat.pow_le_pow_right (by decide) (Nat.not_lt.mp hge))
      rw [Nat.testBit_lt_two_pow hbound] at hexec
      cases hexec
    have hbits : ∀ i < 7, Nat.testBit 0o111 i = true → i = 6 ∨ i = 3 ∨ i = 0 := by decide
    rcases hbits i hlt hexec with rfl | rfl | rfl
    · exact Or.inl hbit
    · exact Or.inr (Or.inl hbit)
    · exact Or.inr (Or.inr hbit)
  · intro h hzero
    have hbit (i : Nat) (hi : Nat.testBit 0o111 i = true) : bits.testBit i = false := by
      have := hmask i
      rw [hzero, Nat.zero_testBit, hi, Bool.and_true] at this
      exact this.symm
    rw [hbit 6 (by decide), hbit 3 (by decide), hbit 0 (by decide)] at h
    simp at h

theorem describes_entryFor (hne : names ≠ []) (hvalid : ∀ n ∈ names, n.valid = true) :
    Describes (entryFor names node) names node where
  directory := by
    rintro rfl
    exact ⟨rfl, rfl, rfl, rfl⟩
  directoryName := by
    rintro rfl
    exact directoryName_eq hne hvalid
  file := by
    intro hnode
    cases node with
    | dir => exact absurd rfl hnode
    | file _ _ | link _ | device _ => exact ⟨rfl, rfl, rfl, rfl⟩
  mode := by
    rintro content bits rfl
    by_cases hrun : bits.testBit 6 ∨ bits.testBit 3 ∨ bits.testBit 0
    · have hexec : (Node.file content bits).isExecutable = true := isExecutable_iff.mpr hrun
      rw [if_pos hrun]
      simp only [entryFor, hexec, Zip.Body.mode]
    · have hexec : (Node.file content bits).isExecutable = false :=
        Bool.eq_false_iff.mpr (mt isExecutable_iff.mp hrun)
      rw [if_neg hrun]
      simp only [entryFor, hexec, Zip.Body.mode]

/-! ## How long names get -/

/-- The names that lead down from a path are at the end of its spelling. -/
theorem joinSlash_isSuffix_descend (source : Path) (h : ∀ n ∈ names, n.IsPiece) :
    joinSlash names <:+ (source.descend names).bytes := by
  induction names using List.reverseRecOn with
  | nil => exact List.nil_suffix
  | append_singleton names n ih =>
    have hnames : ∀ m ∈ names, m.IsPiece := fun m hm => h m (by simp [hm])
    rw [Path.descend_snoc, Path.child_eq (h n (by simp))]
    by_cases hnil : names = []
    · subst hnil
      exact ⟨source.bytes ++ source.separator, by simp [joinSlash]⟩
    · obtain ⟨above, m, rfl⟩ : ∃ above m, names = above ++ [m] :=
        ⟨_, _, (List.dropLast_concat_getLast hnil).symm⟩
      obtain ⟨front, hfront⟩ := ih hnames
      have hclosed : (source.descend (above ++ [m])).endsWithSlash = false := by
        rw [Path.descend_snoc]
        exact Path.endsWithSlash_child (hnames m (by simp))
      have hne : (source.descend (above ++ [m])).bytes ≠ [] := by
        rw [Path.descend_snoc]
        exact Path.bytes_child_ne (hnames m (by simp))
      have hseparator : (source.descend (above ++ [m])).separator = [slash] := by
        simp [Path.separator, hne, hclosed]
      rw [Loc.joinSlash_snoc n (by simp), hseparator, ← hfront]
      exact ⟨front, by simp⟩

theorem length_joinSlash_shown_le : ∀ names : List Name,
    (joinSlash (names.map fun n => (n.shown : Bytes))).length ≤ 3 * (joinSlash names).length
  | [] => Nat.zero_le _
  | [n] => by simpa [joinSlash] using Bytes.length_ofString_shown_le n
  | n :: m :: names => by
    have ih := length_joinSlash_shown_le (m :: names)
    have hn := Bytes.length_ofString_shown_le n
    simp only [joinSlash, List.map_cons, List.intercalate_cons_cons, List.length_append,
      List.length_singleton] at ih ⊢
    omega

/-- The name of an entry is not much longer than the path that it is found under. -/
theorem utf8ByteSize_entryFor_le (source : Path) (hvalid : ∀ n ∈ names, n.valid = true) :
    (entryFor names node).name.utf8ByteSize ≤ 3 * (source.descend names).bytes.length + 1 := by
  have hsuffix := (joinSlash_isSuffix_descend source
    fun n hn => (Name.isEntry_of_valid (hvalid n hn)).toIsPiece).length_le
  have hshown := length_joinSlash_shown_le names
  have hjoined : (Zip.joinNames (entryNames names)).utf8ByteSize ≤
      3 * (source.descend names).bytes.length := by
    rw [← Bytes.length_ofString, Zip.ofString_joinNames, entryNames, List.map_map]
    exact Nat.le_trans hshown (Nat.mul_le_mul_left 3 hsuffix)
  cases node with
  | file _ _ | link _ | device _ => exact Nat.le_succ_of_le hjoined
  | dir =>
    show (Zip.directoryName (entryNames names)).utf8ByteSize ≤ _
    unfold Zip.directoryName
    simp only
    split_ifs
    · exact Nat.le_succ_of_le hjoined
    · rw [String.utf8ByteSize_append]
      exact Nat.succ_le_succ hjoined

end Package

end Zipship
