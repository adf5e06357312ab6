import Mathlib.Data.List.Induction
import Mathlib.Tactic.Common
import Zipship.Tree.Resolve

/-!
# How paths are spelled

A path is put together from a base and names, and looked up by its pieces. This file says that
nothing is lost in between: `pieces_join` and `components_child` give the pieces and the components
of a joined path, `Path.IsEntryOf` says that a path goes to one entry of a directory, and
`Path.Spells` is what a look-up needs to know of a path from the root. The canonical spelling of a
location spells it (`Loc.spells_path`), and going down from there through names spells what those
names lead to (`Path.Spells.descend`).
-/

namespace Zipship

/-! ## Cutting at slashes -/

theorem splitSlash_ne_nil : ∀ bs : Bytes, splitSlash bs ≠ []
  | [] => by simp [splitSlash]
  | b :: bs => by
    unfold splitSlash
    split_ifs
    · exact List.cons_ne_nil _ _
    · split <;> exact List.cons_ne_nil _ _

/-- A slash separates what is in front of it from what is behind it. -/
theorem splitSlash_append (a b : Bytes) :
    splitSlash (a ++ slash :: b) = splitSlash a ++ splitSlash b := by
  induction a with
  | nil => simp [splitSlash]
  | cons c a ih =>
    rw [List.cons_append, splitSlash, splitSlash, ih]
    split_ifs with hc
    · rfl
    · cases h : splitSlash a with
      | nil => exact absurd h (splitSlash_ne_nil a)
      | cons p ps => rfl

theorem splitSlash_eq_singleton {bs : Bytes} (h : slash ∉ bs) : splitSlash bs = [bs] := by
  induction bs with
  | nil => rfl
  | cons b bs ih =>
    rw [List.mem_cons, not_or] at h
    rw [splitSlash, if_neg (Ne.symm h.1), ih h.2]

/-- What stands between slashes has no slash, and nothing that the whole has not. -/
theorem mem_of_mem_splitSlash {bs part : Bytes} (h : part ∈ splitSlash bs) :
    ∀ b ∈ part, b ∈ bs ∧ b ≠ slash := by
  induction bs generalizing part with
  | nil =>
    rw [splitSlash, List.mem_singleton] at h
    simp [h]
  | cons b bs ih =>
    unfold splitSlash at h
    by_cases hc : b = slash
    · rw [if_pos hc] at h
      rcases List.mem_cons.mp h with rfl | h
      · simp
      · exact fun x hx => ⟨List.mem_cons_of_mem _ (ih h x hx).1, (ih h x hx).2⟩
    · rw [if_neg hc] at h
      cases hs : splitSlash bs with
      | nil => exact absurd hs (splitSlash_ne_nil bs)
      | cons first parts =>
        rw [hs] at h ih
        rcases List.mem_cons.mp h with rfl | h
        · intro x hx
          rcases List.mem_cons.mp hx with rfl | hx
          · exact ⟨List.mem_cons_self, hc⟩
          · obtain ⟨hmem, hne⟩ := ih List.mem_cons_self x hx
            exact ⟨List.mem_cons_of_mem _ hmem, hne⟩
        · intro x hx
          obtain ⟨hmem, hne⟩ := ih (List.mem_cons_of_mem _ h) x hx
          exact ⟨List.mem_cons_of_mem _ hmem, hne⟩

/-- A name that is one piece of a path: it holds something, but no slash. -/
structure Name.IsPiece (n : Name) : Prop where
  ne_empty : n ≠ []
  no_slash : slash ∉ n

/-- A piece that goes to an entry, and neither stays nor goes back. -/
structure Name.IsEntry (n : Name) : Prop extends n.IsPiece where
  ne_here : n ≠ Name.here
  ne_up : n ≠ Name.up

/-- What a valid name is, condition by condition. -/
theorem Name.valid_iff {n : Name} : n.valid = true ↔
    n.IsEntry ∧ 0 ∉ n ∧ n.length ≤ Tree.maxNameBytes := by
  simp only [Name.valid, Bool.and_eq_true, decide_eq_true_eq, Bool.not_eq_true',
    List.contains_eq_mem, decide_eq_false_iff_not]
  constructor
  · rintro ⟨⟨⟨⟨⟨h1, h2⟩, h3⟩, h4⟩, h5⟩, h6⟩
    exact ⟨⟨⟨h1, h4⟩, h2, h3⟩, h5, h6⟩
  · rintro ⟨⟨⟨h1, h4⟩, h2, h3⟩, h5, h6⟩
    exact ⟨⟨⟨⟨⟨h1, h2⟩, h3⟩, h4⟩, h5⟩, h6⟩

theorem Name.isEntry_of_valid {n : Name} (h : n.valid = true) : n.IsEntry := (valid_iff.mp h).1

theorem Name.length_le_of_valid {n : Name} (h : n.valid = true) :
    n.length ≤ Tree.maxNameBytes := (valid_iff.mp h).2.2

namespace Path

variable {p q : Path} {n : Name} {names : List Name}

/-! ## Pieces -/

theorem isPiece_of_mem_pieces (h : n ∈ p.pieces) : n.IsPiece := by
  obtain ⟨hsplit, hne⟩ := List.mem_filter.mp h
  exact ⟨by simpa using hne, fun hslash => (mem_of_mem_splitSlash hsplit _ hslash).2 rfl⟩

theorem no_nul_of_mem_pieces (hp : p.hasNul = false) (h : n ∈ p.pieces) :
    0 ∉ n := by
  intro hnul
  have hmem := (mem_of_mem_splitSlash (List.mem_filter.mp h).1 _ hnul).1
  simp [hasNul, hmem] at hp

theorem mem_pieces_of_mem_route (h : n ∈ p.route) : n ∈ p.pieces ∨ n = Name.here := by
  unfold route at h
  split_ifs at h
  · simpa using h
  · exact Or.inl h

/-- A path that holds something but no piece is one of slashes. -/
theorem isAbsolute_of_pieces_eq_nil (hp : p.bytes ≠ []) (h : p.pieces = []) :
    p.isAbsolute = true := by
  obtain ⟨b, bs, hbs⟩ := List.exists_cons_of_ne_nil hp
  have hslash : b = slash := by
    by_contra hne
    rw [pieces, hbs, splitSlash, if_neg hne] at h
    cases hs : splitSlash bs with
    | nil => exact splitSlash_ne_nil bs hs
    | cons part parts =>
      rw [hs] at h
      simp at h
  simp [isAbsolute, hbs, hslash]

/-! ## Joining -/

theorem pieces_of_isPiece (h : n.IsPiece) : pieces ⟨n⟩ = [n] := by
  unfold pieces
  rw [splitSlash_eq_singleton h.no_slash]
  simp [h.ne_empty]

theorem isAbsolute_of_isPiece (h : n.IsPiece) : isAbsolute ⟨n⟩ = false := by
  unfold isAbsolute
  rw [decide_eq_false_iff_not]
  exact fun hh => h.no_slash (List.mem_of_mem_head? (Option.mem_def.mpr hh))

/-- A relative path is appended piece by piece. -/
theorem pieces_join (hq : q.isAbsolute = false) : (p.join q).pieces = p.pieces ++ q.pieces := by
  unfold join
  rw [if_neg (by simp [hq])]
  by_cases hempty : p.bytes.isEmpty = true
  · have hp : p.bytes = [] := by simpa using hempty
    rw [if_pos (by simp [hempty])]
    simp [pieces, hp, splitSlash]
  by_cases hslash : p.endsWithSlash = true
  · rw [if_pos (by simp [hslash])]
    obtain ⟨a, ha⟩ : ∃ a, p.bytes = a ++ [slash] := by
      simp only [endsWithSlash, decide_eq_true_eq] at hslash
      exact ⟨_, List.getLast?_eq_some_iff.mp hslash |>.choose_spec⟩
    have hsplit := splitSlash_append a []
    simp only [pieces, ha, List.append_assoc, List.singleton_append, splitSlash_append,
      List.filter_append, hsplit, splitSlash]
    simp
  · rw [if_neg (by simp [hempty, hslash])]
    simp only [pieces, splitSlash_append, List.filter_append]

/-- Whether a path starts from the root is decided by its beginning. -/
theorem isAbsolute_join (hp : p.bytes ≠ []) (hq : q.isAbsolute = false) :
    (p.join q).isAbsolute = p.isAbsolute := by
  have hhead (bs : Bytes) : (p.bytes ++ bs).head? = p.bytes.head? := by
    cases h : p.bytes with
    | nil => exact absurd h hp
    | cons b _ => rfl
  unfold join
  rw [if_neg (by simp [hq])]
  split_ifs
  · simp only [isAbsolute, hhead]
  · simp only [isAbsolute, hhead]

/-- What joins a name to the path in front of it: a slash, unless one is there or nothing is. -/
def separator (p : Path) : Bytes := if p.bytes.isEmpty || p.endsWithSlash then [] else [slash]

theorem child_eq (h : n.IsPiece) : p.child n = ⟨p.bytes ++ p.separator ++ n⟩ := by
  unfold child join separator
  rw [if_neg (by simp [isAbsolute_of_isPiece h])]
  split_ifs <;> simp

theorem bytes_child_ne (h : n.IsPiece) : (p.child n).bytes ≠ [] := by
  rw [child_eq h]
  simp [h.ne_empty]

theorem endsWithSlash_child (h : n.IsPiece) : (p.child n).endsWithSlash = false := by
  have hlast : n.getLast? ≠ some slash := fun hh => h.no_slash (List.mem_of_getLast? hh)
  rw [child_eq h, endsWithSlash, decide_eq_false_iff_not, List.getLast?_append,
    List.getLast?_eq_some_getLast h.ne_empty, Option.some_or,
    ← List.getLast?_eq_some_getLast h.ne_empty]
  exact hlast

theorem pieces_child (h : n.IsPiece) : (p.child n).pieces = p.pieces ++ [n] := by
  rw [child, pieces_join (isAbsolute_of_isPiece h), pieces_of_isPiece h]

/-- The components of what goes on from a path are appended to those of the path. -/
theorem components_join (hq : q.isAbsolute = false)
    (hhere : q.pieces.head? ≠ some Name.here) :
    (p.join q).components = p.components ++ q.components := by
  have hsteps : q.components = (q.pieces.filter (· ≠ Name.here)).map Component.ofPiece := by
    simp [components, hq, hhere]
  by_cases hp : p.bytes = []
  · have hp0 : p.components = [] := by simp [components, pieces, isAbsolute, hp, splitSlash]
    have hjoin : p.join q = q := by simp [join, hq, hp]
    rw [hjoin, hp0, List.nil_append]
  · have hhead : p.isAbsolute = false →
        ((p.pieces ++ q.pieces).head? = some Name.here ↔ p.pieces.head? = some Name.here) := by
      intro habs
      have hne : p.pieces ≠ [] := fun hnil => by
        rw [isAbsolute_of_pieces_eq_nil hp hnil] at habs
        cases habs
      obtain ⟨m, ms, hms⟩ := List.exists_cons_of_ne_nil hne
      simp [hms]
    rw [hsteps]
    simp only [components, isAbsolute_join hp hq, pieces_join hq, List.filter_append,
      List.map_append]
    cases habs : p.isAbsolute with
    | true => rfl
    | false =>
      simp only [hhead habs, Bool.false_eq_true, if_false]
      split_ifs <;> rfl

/-- An entry adds one component. -/
theorem components_child (h : n.IsEntry) : (p.child n).components = p.components ++ [.name n] := by
  have habs := isAbsolute_of_isPiece h.toIsPiece
  have hpieces := pieces_of_isPiece h.toIsPiece
  rw [child, components_join habs (by simp [hpieces, h.ne_here])]
  simp [components, habs, hpieces, h.ne_here, Component.ofPiece, h.ne_up]

/-! ## Going down -/

@[simp] theorem descend_nil : p.descend [] = p := rfl

theorem descend_snoc : p.descend (names ++ [n]) = (p.descend names).child n := by
  simp [descend, List.foldl_append]

theorem descend_append (names later : List Name) :
    p.descend (names ++ later) = (p.descend names).descend later :=
  List.foldl_append

theorem pieces_descend (h : ∀ n ∈ names, n.IsPiece) :
    (p.descend names).pieces = p.pieces ++ names := by
  induction names using List.reverseRecOn with
  | nil => simp
  | append_singleton names n ih =>
    rw [descend_snoc, pieces_child (h n (by simp)), ih fun m hm => h m (by simp [hm]),
      List.append_assoc]

theorem bytes_descend_ne (hp : p.bytes ≠ []) (h : ∀ n ∈ names, n.IsPiece) :
    (p.descend names).bytes ≠ [] := by
  induction names using List.reverseRecOn with
  | nil => exact hp
  | append_singleton names n ih =>
    rw [descend_snoc]
    exact bytes_child_ne (h n (by simp))

theorem isAbsolute_descend (hp : p.bytes ≠ []) (h : ∀ n ∈ names, n.IsPiece) :
    (p.descend names).isAbsolute = p.isAbsolute := by
  induction names using List.reverseRecOn with
  | nil => rfl
  | append_singleton names n ih =>
    have hnames : ∀ m ∈ names, m.IsPiece := fun m hm => h m (by simp [hm])
    rw [descend_snoc, child, isAbsolute_join (bytes_descend_ne hp hnames)
      (isAbsolute_of_isPiece (h n (by simp))), ih hnames]

theorem components_descend (h : ∀ n ∈ names, n.IsEntry) :
    (p.descend names).components = p.components ++ names.map .name := by
  induction names using List.reverseRecOn with
  | nil => simp
  | append_singleton names n ih =>
    rw [descend_snoc, components_child (h n (by simp)), ih fun m hm => h m (by simp [hm]),
      List.append_assoc, List.map_append]
    rfl

/-- What is left of a path behind another one that it goes down from are the names between. -/
theorem strip?_descend (h : ∀ n ∈ names, n.IsEntry) :
    strip? p (p.descend names) = some (ofComponents (names.map .name)) := by
  have hbelow : (p.descend names).isBelow p = true := by
    rw [isBelow, components_descend h]
    exact List.isPrefixOf_iff_prefix.mpr (List.prefix_append _ _)
  rw [strip?, if_pos hbelow, components_descend h, List.drop_left]

/-- The path goes to the entry `n` of `dir`: it is spelled as `dir` with a slash and the name, and
behind the components of `dir` it has the name as its one component. -/
structure IsEntryOf (p dir : Path) (n : Name) : Prop where
  bytes : p.bytes = dir.bytes ++ slash :: n
  components : p.components = dir.components ++ [.name n]
  rest : strip? dir p = some ⟨n⟩
  alone : Path.components ⟨n⟩ = [.name n]

theorem isEntryOf_child (h : n.IsEntry) (hp : p.bytes ≠ []) (hslash : p.endsWithSlash = false) :
    (p.child n).IsEntryOf p n where
  bytes := by
    have hseparator : p.separator = [slash] := if_neg (by simp [hp, hslash])
    rw [child_eq h.toIsPiece, hseparator, List.append_assoc, List.singleton_append]
  components := components_child h
  rest := by
    have hdescend : strip? p (p.descend [n]) = some (ofComponents [.name n]) :=
      strip?_descend (by simpa using h)
    simpa [ofComponents, joinSlash, Component.bytes, descend] using hdescend
  alone := by
    have hnone : Path.components ⟨[]⟩ = [] := by decide
    have hchild : child ⟨[]⟩ n = ⟨n⟩ := by simp [child_eq h.toIsPiece, separator]
    rw [← hchild, components_child h, hnone, List.nil_append]

/-! ## Reading components back -/

/-- A path of which every component is a name starts at the root, and has those names as pieces
beside pieces that stay where they are. -/
theorem pieces_of_components {l : Loc} (h : p.components = .root :: l.map .name) :
    p.isAbsolute = true ∧ p.pieces.filter (· ≠ Name.here) = l := by
  have hroot (pieces : List Name) : Component.root ∉ pieces.map Component.ofPiece := by
    intro hmem
    obtain ⟨piece, -, heq⟩ := List.mem_map.mp hmem
    unfold Component.ofPiece at heq
    split_ifs at heq
  have hread (pieces : List Name) (names : List Name)
      (heq : pieces.map Component.ofPiece = names.map .name) : pieces = names := by
    induction pieces generalizing names with
    | nil =>
      rw [List.map_nil] at heq
      exact (List.map_eq_nil_iff.mp heq.symm).symm
    | cons piece pieces ih =>
      cases names with
      | nil => cases heq
      | cons n names =>
        rw [List.map_cons, List.map_cons, List.cons.injEq] at heq
        obtain ⟨hpiece, hrest⟩ := heq
        unfold Component.ofPiece at hpiece
        split_ifs at hpiece
        cases hpiece
        rw [ih names hrest]
  unfold components at h
  by_cases habs : p.isAbsolute = true
  · rw [if_pos habs, List.cons.injEq] at h
    exact ⟨habs, hread _ _ h.2⟩
  · rw [if_neg habs] at h
    split_ifs at h
    · cases h
    · exact absurd (h ▸ List.mem_cons_self) (hroot _)

/-- A path of which every component is a name is relative, and does not begin by staying. -/
theorem relative_of_components (h : p.components = names.map .name) :
    p.isAbsolute = false ∧ p.pieces.head? ≠ some Name.here := by
  have hname : ∀ step ∈ p.components, ∃ n, step = .name n := by
    rw [h]
    exact List.forall_mem_map.mpr fun n _ => ⟨n, rfl⟩
  unfold components at hname
  by_cases habs : p.isAbsolute = true
  · rw [if_pos habs] at hname
    obtain ⟨n, hn⟩ := hname .root List.mem_cons_self
    cases hn
  · refine ⟨Bool.eq_false_iff.mpr habs, fun hhere => ?_⟩
    rw [if_neg habs, if_pos hhere] at hname
    obtain ⟨n, hn⟩ := hname .here List.mem_cons_self
    cases hn

/-! ## Spelling a location -/

/-- The path goes from the root along exactly the names of `l`. -/
structure Spells (p : Path) (l : Loc) : Prop where
  absolute : p.isAbsolute = true
  pieces : p.pieces = l
  /-- Only the root is spelled with a slash at the end. -/
  closed : l ≠ [] → p.endsWithSlash = false

namespace Spells

variable {l : Loc}

theorem bytes_ne (h : p.Spells l) : p.bytes ≠ [] := by
  intro hp
  have := h.absolute
  simp [isAbsolute, hp] at this

theorem start (h : p.Spells l) (cwd : Loc) : p.start cwd = [] := by
  simp [Path.start, h.absolute]

theorem route (h : p.Spells l) : p.route = l := by
  unfold Path.route
  rw [h.pieces]
  by_cases hl : l = []
  · simp [hl]
  · simp [h.closed hl]

theorem child (h : p.Spells l) (hn : n.IsPiece) : (p.child n).Spells (l ++ [n]) where
  absolute := by
    rw [Path.child, isAbsolute_join h.bytes_ne (isAbsolute_of_isPiece hn), h.absolute]
  pieces := by rw [pieces_child hn, h.pieces]
  closed _ := endsWithSlash_child hn

theorem descend (h : p.Spells l) (hn : ∀ n ∈ names, n.IsPiece) :
    (p.descend names).Spells (l ++ names) := by
  induction names using List.reverseRecOn with
  | nil => simpa using h
  | append_singleton names n ih =>
    rw [descend_snoc, ← List.append_assoc]
    exact (ih fun m hm => hn m (by simp [hm])).child (hn n (by simp))

theorem components (h : p.Spells l) (hl : ∀ n ∈ l, n.IsEntry) :
    p.components = .root :: l.map .name := by
  have hhere : l.filter (· ≠ Name.here) = l :=
    List.filter_eq_self.mpr fun n hn => by simpa using (hl n hn).ne_here
  have hsteps : l.map Component.ofPiece = l.map .name :=
    List.map_congr_left fun n hn => if_neg (hl n hn).ne_up
  unfold Path.components
  rw [if_pos h.absolute, h.pieces, hhere, hsteps]

end Spells

theorem spells_root : Spells ⟨"/"⟩ [] := ⟨by decide, by decide, fun h => absurd rfl h⟩

end Path

namespace Loc

/-- One more name comes behind one more slash. -/
theorem joinSlash_snoc (n : Name) : ∀ {names : List Name}, names ≠ [] →
    joinSlash (names ++ [n]) = joinSlash names ++ slash :: n
  | [], h => absurd rfl h
  | [m], _ => by simp [joinSlash]
  | m :: m' :: names, _ => by
    have ih := joinSlash_snoc n (List.cons_ne_nil m' names)
    simp only [joinSlash, List.cons_append, List.intercalate_cons_cons] at ih ⊢
    rw [ih]
    simp

/-- The canonical spelling goes down from the root. -/
theorem path_eq_descend {l : Loc} (h : ∀ n ∈ l, n.IsPiece) : l.path = Path.descend ⟨"/"⟩ l := by
  induction l using List.reverseRecOn with
  | nil => rfl
  | append_singleton l n ih =>
    have hl : ∀ m ∈ l, m.IsPiece := fun m hm => h m (by simp [hm])
    rw [Path.descend_snoc, ← ih hl, Path.child_eq (h n (by simp))]
    by_cases hnil : l = []
    · subst hnil
      simp [path, Path.ofComponents, joinSlash, Component.bytes, Path.separator,
        Path.endsWithSlash]
    · have hsep : (path l).separator = [slash] := by
        have hspell := Path.spells_root.descend hl
        rw [← ih hl, List.nil_append] at hspell
        simp [Path.separator, hspell.bytes_ne, hspell.closed hnil]
      have hmap : l.map (Component.bytes ∘ Component.name) ≠ [] := by simpa using hnil
      rw [hsep]
      simp [path, Path.ofComponents, joinSlash_snoc n hmap, Component.bytes]

/-- The canonical spelling of a location spells it. -/
theorem spells_path {l : Loc} (h : ∀ n ∈ l, n.IsPiece) : l.path.Spells l := by
  rw [path_eq_descend h]
  exact Path.spells_root.descend h

end Loc

end Zipship
