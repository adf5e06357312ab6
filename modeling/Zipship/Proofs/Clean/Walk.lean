import Mathlib.Data.List.Sort
import Zipship.Clean.Run
import Zipship.Proofs.Path.Extension
import Zipship.Proofs.Tree.View

/-!
# What the search for compiled files finds

The search goes down from the project directory and turns back at what is removed as a whole. It
finds exactly the entries that an interpreter made and that are not inside another one of those
(`mem_cachesBelow`), in depth-first order with siblings in byte order, which is the lexicographic
order of the names that lead to them (`cachesIn_pairwise`).
-/

namespace Zipship.Clean

variable {t : Tree} {root : Loc} {fuel : Nat} {names c q : List Name} {name : Name} {node : Node}

/-- An interpreter made what `names` lead to from `root`. -/
def IsCache (t : Tree) (root : Loc) (names : List Name) : Prop :=
  ∃ above name node, names = above ++ [name] ∧ t.get? (root ++ names) = some node ∧
    node.isBytecode name = true

/-- The names lead to one of the places that are removed whatever they are. -/
def IsFixed (names : List Name) : Prop := ∃ fixed ∈ fixedNames, names = [fixed]

theorem isCache_snoc (h : t.get? (root ++ (names ++ [name])) = some node) :
    IsCache t root (names ++ [name]) ↔ node.isBytecode name = true := by
  constructor
  · rintro ⟨above, m, node', heq, hget, hm⟩
    obtain ⟨rfl, rfl⟩ : names = above ∧ name = m := by simpa using List.append_inj' heq rfl
    rw [h] at hget
    cases hget
    exact hm
  · exact fun hm => ⟨names, name, node, rfl, h, hm⟩

/-- An interpreter makes nothing under the names of the fixed places. -/
theorem IsCache.not_isFixed (h : IsCache t root names) : ¬ IsFixed names := by
  obtain ⟨above, name, node, rfl, -, hname⟩ := h
  rintro ⟨fixed, hmem, heq⟩
  obtain ⟨rfl, rfl⟩ : above = [] ∧ name = fixed := by
    simpa using List.append_eq_singleton_iff.mp heq
  have hdir : ∀ n ∈ fixedNames, n ≠ Name.cacheDirectory := by decide
  have hfile : ∀ n ∈ fixedNames, n.isBytecode = false := by decide
  cases node with
  | dir => exact hdir name hmem (by simpa [Node.isBytecode] using hname)
  | file _ _ | link _ | device _ =>
    have : name.isBytecode = true := hname
    rw [hfile name hmem] at this
    cases this

theorem IsFixed.ne_nil (h : IsFixed q) : q ≠ [] := by
  obtain ⟨fixed, -, rfl⟩ := h
  exact List.cons_ne_nil _ _

theorem IsCache.ne_nil (h : IsCache t root q) : q ≠ [] := by
  obtain ⟨above, name, -, rfl, -⟩ := h
  exact List.concat_ne_nil _ _

theorem cachesIn_succ : cachesIn t root (fuel + 1) names =
    (t.sortedChildren (root ++ names)).flatMap (cachesAt t root (cachesIn t root fuel) names) := rfl

/-- An entry is found itself, or the search goes on in it. -/
theorem mem_cachesAt : c ∈ cachesAt t root (cachesIn t root fuel) names name ↔
    c = names ++ [name] ∧ IsCache t root c ∨
      t.get? (root ++ (names ++ [name])) = some .dir ∧ ¬ IsFixed (names ++ [name]) ∧
        ¬ IsCache t root (names ++ [name]) ∧ c ∈ cachesIn t root fuel (names ++ [name]) := by
  have hfixed : names ++ [name] ∈ fixedNames.map (fun fixed => [fixed]) ↔
      IsFixed (names ++ [name]) := by
    simp only [List.mem_map, IsFixed, eq_comm]
  have hother (hc : ¬ IsCache t root (names ++ [name])) :
      ¬ (c = names ++ [name] ∧ IsCache t root c) := fun h => hc (h.1 ▸ h.2)
  have hfound (hc : IsCache t root (names ++ [name])) :
      c = names ++ [name] ∧ IsCache t root c ↔ c = names ++ [name] :=
    and_iff_left_of_imp fun h => h ▸ hc
  unfold cachesAt
  cases hget : t.get? (root ++ (names ++ [name])) with
  | none =>
    have hc : ¬ IsCache t root (names ++ [name]) := by
      rintro ⟨above, last, node, -, hnode, -⟩
      rw [hget] at hnode
      cases hnode
    simp [hother hc]
  | some node =>
    have hcache := isCache_snoc hget
    cases node with
    | dir =>
      simp only [Node.isBytecode, decide_eq_true_eq] at hcache
      by_cases hname : name = Name.cacheDirectory
      · have hc := hcache.mpr hname
        simp only [if_neg (mt hfixed.mp hc.not_isFixed), if_pos hname, hfound hc]
        simp [hc]
      · have hc := mt hcache.mp hname
        by_cases hf : IsFixed (names ++ [name])
        · simp only [if_pos (hfixed.mpr hf)]
          simp [hother hc, hf]
        · simp only [if_neg (mt hfixed.mp hf), if_neg hname]
          simp [hother hc, hf, hc]
    | file _ _ | link _ | device _ =>
      simp only [Node.isBytecode] at hcache
      by_cases hname : name.isBytecode = true
      · simp [hname, hfound (hcache.mpr hname)]
      · simp [hname, hother (mt hcache.mp hname)]

/-- Between `names` and `c` there is nothing that the search would stop at. -/
def Enters (t : Tree) (root : Loc) (names c : List Name) : Prop :=
  ∀ q, q <+: c → names.length < q.length → q ≠ c → ¬ IsCache t root q ∧ ¬ IsFixed q

theorem enters_self : Enters t root names (names ++ [name]) := by
  intro q hq hlen hne
  have hle := hq.length_le
  rw [List.length_append, List.length_singleton] at hle
  refine absurd (hq.eq_of_length ?_) hne
  rw [List.length_append, List.length_singleton]
  omega

/-- The search comes to `c` past the next name if it does not stop there. -/
theorem enters_iff (hpre : names ++ [name] <+: c) (hne : names ++ [name] ≠ c) :
    Enters t root names c ↔
      (¬ IsCache t root (names ++ [name]) ∧ ¬ IsFixed (names ++ [name])) ∧
        Enters t root (names ++ [name]) c := by
  constructor
  · intro h
    refine ⟨h _ hpre (by simp) hne, fun q hq hlen => h q hq ?_⟩
    rw [List.length_append, List.length_singleton] at hlen
    omega
  · rintro ⟨hstop, h⟩ q hq hlen hqc
    by_cases hnext : q.length = (names ++ [name]).length
    · have heq : q = names ++ [name] :=
        (List.prefix_of_prefix_length_le hq hpre hnext.le).eq_of_length hnext
      rwa [heq]
    · refine h q hq ?_ hqc
      rw [List.length_append, List.length_singleton] at hnext ⊢
      omega

/-- What the search finds below the directory that `names` lead to. -/
theorem mem_cachesIn : c ∈ cachesIn t root fuel names ↔
    names <+: c ∧ names ≠ c ∧ c.length ≤ names.length + fuel ∧ IsCache t root c ∧
      Enters t root names c := by
  induction fuel generalizing names with
  | zero =>
    simp only [cachesIn, List.not_mem_nil, false_iff]
    rintro ⟨hpre, hne, hle, -⟩
    exact hne (hpre.eq_of_length_le hle)
  | succ fuel ih =>
    rw [cachesIn_succ, List.mem_flatMap]
    constructor
    · rintro ⟨name, -, hname⟩
      rcases mem_cachesAt.mp hname with ⟨rfl, hc⟩ | ⟨-, hfixed, hcache, hc⟩
      · exact ⟨List.prefix_append _ _, by simp, by simp, hc, enters_self⟩
      · obtain ⟨hpre, hne, hle, hc, henter⟩ := ih.mp hc
        rw [List.length_append, List.length_singleton] at hle
        refine ⟨(List.prefix_append _ _).trans hpre, ?_, by omega, hc,
          (enters_iff hpre hne).mpr ⟨⟨hcache, hfixed⟩, henter⟩⟩
        rintro rfl
        have := hpre.length_le
        rw [List.length_append, List.length_singleton] at this
        omega
    · rintro ⟨⟨rest, rfl⟩, hne, hle, hc, henter⟩
      obtain ⟨name, rest, rfl⟩ : ∃ name more, rest = name :: more :=
        List.exists_cons_of_ne_nil fun h => hne (by simp [h])
      obtain ⟨above, last, leaf, -, hleaf, -⟩ := id hc
      have hpre : names ++ [name] <+: names ++ name :: rest := ⟨rest, by simp⟩
      have hsome := Tree.isSome_of_isPrefix (Option.isSome_of_mem hleaf)
        ((List.prefix_append_right_inj root).mpr hpre)
      refine ⟨name, Tree.mem_sortedChildren.mpr (by rwa [List.append_assoc]), ?_⟩
      refine mem_cachesAt.mpr ?_
      by_cases hlast : names ++ [name] = names ++ name :: rest
      · exact Or.inl ⟨hlast.symm, hc⟩
      · obtain ⟨⟨hcache, hfixed⟩, henter⟩ := (enters_iff hpre hlast).mp henter
        have hdir := Tree.get?_eq_dir_of_isPrefix hleaf
          ((List.prefix_append_right_inj root).mpr hpre) fun h => hlast (List.append_cancel_left h)
        refine Or.inr ⟨hdir, hfixed, hcache, ih.mpr ⟨hpre, hlast, ?_, hc, henter⟩⟩
        simp only [List.length_append, List.length_cons, List.length_nil] at hle ⊢
        omega

/-- **What the search finds**: every entry that an interpreter made, unless it is inside another
one or inside one of the fixed places. -/
theorem mem_cachesBelow : c ∈ cachesBelow t root ↔
    IsCache t root c ∧ ∀ q, q <+: c → q ≠ [] → q ≠ c → ¬ IsCache t root q ∧ ¬ IsFixed q := by
  unfold cachesBelow
  rw [mem_cachesIn]
  constructor
  · rintro ⟨-, -, -, hc, henter⟩
    exact ⟨hc, fun q hq hne => henter q hq (List.length_pos_iff.mpr hne)⟩
  · rintro ⟨hc, henter⟩
    obtain ⟨above, name, node, rfl, hnode, -⟩ := id hc
    have hle := Tree.length_le_entries hnode
    rw [List.length_append] at hle
    refine ⟨List.nil_prefix, by simp, by simp at hle ⊢; omega, hc, ?_⟩
    exact fun q hq hlen => henter q hq (List.length_pos_iff.mp hlen)

/-- The search is depth first, with siblings in byte order. -/
theorem cachesIn_pairwise : (cachesIn t root fuel names).Pairwise (List.Lex (· < ·)) := by
  induction fuel generalizing names with
  | zero => exact List.Pairwise.nil
  | succ fuel ih =>
    have hstart (name : Name) : ∀ x ∈ cachesAt t root (cachesIn t root fuel) names name,
        names ++ [name] <+: x := by
      intro x hx
      rcases mem_cachesAt.mp hx with ⟨rfl, -⟩ | ⟨-, -, -, hx⟩
      · exact List.prefix_rfl
      · exact (mem_cachesIn.mp hx).1
    rw [cachesIn_succ, List.pairwise_flatMap]
    constructor
    · intro name _
      unfold cachesAt
      split
      · split_ifs
        · exact List.Pairwise.nil
        · exact List.pairwise_singleton _ _
        · exact ih
      · split_ifs
        · exact List.pairwise_singleton _ _
        · exact List.Pairwise.nil
      · exact List.Pairwise.nil
    · exact (Tree.sortedChildren_pairwise t _).imp fun {a b} hab x hx y hy =>
        Tree.lex_of_lt hab (hstart a x hx) (hstart b y hy)

theorem cachesBelow_pairwise : (cachesBelow t root).Pairwise (List.Lex (· < ·)) :=
  cachesIn_pairwise

/-- The order leaves only one list for what the search finds. -/
theorem cachesBelow_eq {t' : Tree} {root' : Loc}
    (h : ∀ c, c ∈ cachesBelow t root ↔ c ∈ cachesBelow t' root') :
    cachesBelow t root = cachesBelow t' root' :=
  cachesBelow_pairwise.eq_of_mem_iff cachesBelow_pairwise h

/-! ## What the search goes into -/

/-- The search goes into nothing that is in a fixed place. -/
theorem not_isFixed_of_isEntered (h : isEntered c = true) : ∀ q, q <+: c → ¬ IsFixed q := by
  rintro q ⟨rest, rfl⟩ ⟨fixed, hmem, rfl⟩
  simp [isEntered, hmem] at h

theorem isEntered_of_isPrefix (h : isEntered c = true) (hq : q <+: c) : isEntered q = true := by
  obtain ⟨rest, rfl⟩ := hq
  cases q with
  | nil => rfl
  | cons name q => simp_all [isEntered]

/-- The directories that the search goes into below the one that `names` lead to. -/
theorem mem_enteredIn : c ∈ enteredIn t root fuel names ↔
    names <+: c ∧ names ≠ c ∧ c.length ≤ names.length + fuel ∧ t.get? (root ++ c) = some .dir ∧
      isEntered c = true := by
  induction fuel generalizing names with
  | zero =>
    simp only [enteredIn, List.not_mem_nil, false_iff]
    rintro ⟨hpre, hne, hle, -⟩
    exact hne (hpre.eq_of_length_le hle)
  | succ fuel ih =>
    simp only [enteredIn, List.mem_flatMap]
    constructor
    · rintro ⟨name, -, hname⟩
      split_ifs at hname with hstep
      · simp only [Bool.and_eq_true, decide_eq_true_eq] at hstep
        rcases List.mem_cons.mp hname with rfl | hc
        · exact ⟨List.prefix_append _ _, by simp, by simp, hstep⟩
        · obtain ⟨hpre, -, hle, hc⟩ := ih.mp hc
          have hlonger := hpre.length_le
          rw [List.length_append, List.length_singleton] at hle hlonger
          refine ⟨(List.prefix_append _ _).trans hpre, ?_, by omega, hc⟩
          rintro rfl
          omega
      · cases hname
    · rintro ⟨⟨rest, rfl⟩, hne, hle, hdir, hentered⟩
      obtain ⟨name, rest, rfl⟩ : ∃ name more, rest = name :: more :=
        List.exists_cons_of_ne_nil fun h => hne (by simp [h])
      have hpre : names ++ [name] <+: names ++ name :: rest := ⟨rest, by simp⟩
      have hnext : t.get? (root ++ (names ++ [name])) = some .dir := by
        by_cases hlast : names ++ [name] = names ++ name :: rest
        · rw [hlast, hdir]
        · exact Tree.get?_eq_dir_of_isPrefix hdir ((List.prefix_append_right_inj root).mpr hpre)
            fun h => hlast (List.append_cancel_left h)
      refine ⟨name, Tree.mem_sortedChildren.mpr (by rw [List.append_assoc, hnext]; rfl), ?_⟩
      rw [if_pos (by simp [hnext, isEntered_of_isPrefix hentered hpre]), List.mem_cons]
      by_cases hlast : names ++ name :: rest = names ++ [name]
      · exact Or.inl hlast
      · refine Or.inr (ih.mpr ⟨hpre, Ne.symm hlast, ?_, hdir, hentered⟩)
        simp only [List.length_append, List.length_cons, List.length_nil] at hle ⊢
        omega

/-- **What the search goes into**: every directory, unless it is one that is removed as a whole or
is inside such a one. -/
theorem mem_enteredBelow : c ∈ enteredBelow t root ↔
    c ≠ [] ∧ t.get? (root ++ c) = some .dir ∧ isEntered c = true := by
  unfold enteredBelow
  rw [mem_enteredIn]
  constructor
  · rintro ⟨-, hne, -, hc⟩
    exact ⟨hne.symm, hc⟩
  · rintro ⟨hne, hc⟩
    have hle := Tree.length_le_entries hc.1
    rw [List.length_append] at hle
    exact ⟨List.nil_prefix, hne.symm, by simp; omega, hc⟩

theorem forM_eq_ok_iff {α ε : Type} {f : α → Except ε Unit} {xs : List α} :
    xs.forM f = .ok ⟨⟩ ↔ ∀ x ∈ xs, f x = .ok ⟨⟩ := by
  induction xs with
  | nil => simp [pure, Except.pure]
  | cons x xs ih =>
    rw [List.forM, List.forall_mem_cons, ← ih]
    cases f x with
    | error e => simp [bind, Except.bind]
    | ok u => simp [bind, Except.bind]

/-- Where the project directory is missing, nothing is searched. -/
theorem caches_of_notFound {cwd : Loc} {p : Path} (h : t.resolve cwd p = .error .notFound) :
    caches cwd p t = .ok [] := by
  unfold caches
  rw [h]
  exact if_pos rfl

/-- Where the project directory cannot be looked up, nothing is found. -/
theorem caches_eq_nil {cwd : Loc} {p : Path} {e : OsError} {paths : List Path}
    (h : t.resolve cwd p = .error e) (hpaths : caches cwd p t = .ok paths) : paths = [] := by
  unfold caches at hpaths
  rw [h] at hpaths
  simp only at hpaths
  split_ifs at hpaths
  cases hpaths
  rfl

/-- The search succeeds if the operating system takes the path of every directory that it goes into.
-/
theorem caches_eq_ok_iff {cwd : Loc} {p : Path} {pos : Tree.Position} {paths : List Path}
    (h : t.resolve cwd p = .ok pos) : caches cwd p t = .ok paths ↔
      paths = (cachesBelow t pos.loc).map p.descend ∧
        ∀ names ∈ enteredBelow t pos.loc, Tree.checkPath (p.descend names) = .ok ⟨⟩ := by
  have hpassed {q : Path} : (Tree.checkPath q).mapError (scanError q) = .ok ⟨⟩ ↔
      Tree.checkPath q = .ok ⟨⟩ := by
    cases Tree.checkPath q <;> simp [Except.mapError]
  unfold caches
  rw [h, ← List.forall_mem_map (P := fun q => Tree.checkPath q = .ok ⟨⟩)]
  simp only [← hpassed]
  rw [← forM_eq_ok_iff]
  cases ((enteredBelow t pos.loc).map p.descend).forM
      fun q => (Tree.checkPath q).mapError (scanError q) with
  | error e => simp [bind, Except.bind]
  | ok u => simp [bind, Except.bind, pure, Except.pure, eq_comm]

end Zipship.Clean
