import Zipship.Path.Basic
import Zipship.Text.Bytes

/-!
# File trees

A `Tree` is everything below the root directory of a machine: a list of locations, each with what
stands there. A location is the list of names that leads to it through real directories, so two
different locations are never the same place. The list is kept in the order in which a directory
listing would give the entries, which nothing may depend on.

The invariants are part of the type: no location occurs twice, a link holds a path that can be
looked up, and whatever has a location stands in a directory of the tree under a valid name. `get?`
is the view of a tree, and each operation says what it does to that view (`get?_erase`, `get?_put`).
-/

namespace Zipship

/-- A device: `null` swallows what is written to it and holds nothing, `full` refuses it and holds
zeros without an end. -/
inductive Device where
  | null | full
  deriving DecidableEq, Repr

/-- What can stand at a location. -/
inductive Node where
  | dir
  /-- A regular file with its bytes and its permission bits. -/
  | file (content : Bytes) (mode : Nat)
  | link (target : Path)
  | device (d : Device)
  deriving DecidableEq, Repr

namespace Node

/-- The bits that let somebody run a file. -/
def executeBits : Nat := 0o111

/-- The size that a listing shows: of a file its length, of a link that of its text. -/
def size : Node → Nat
  | file content _ => content.length
  | link target => target.bytes.length
  | dir | device _ => 0

/-- The number of bytes held in a regular file; nothing else holds any. -/
def fileSize : Node → Nat
  | file content _ => content.length
  | _ => 0

/-- The content of a regular file; nothing else has any. -/
def content : Node → Bytes
  | .file content _ => content
  | _ => []

/-- Somebody may run the file. -/
def isExecutable : Node → Bool
  | file _ mode => mode &&& executeBits ≠ 0
  | _ => false

end Node

/-- How many bytes a name may have. -/
def Tree.maxNameBytes : Nat := 255

/-- A name that an entry of a directory can have. -/
def Name.valid (n : Name) : Bool :=
  n ≠ [] && n ≠ Name.here && n ≠ Name.up && !n.contains slash && !n.contains 0 &&
    n.length ≤ Tree.maxNameBytes

/-- The names that lead from the root directory to a place, without any link. -/
abbrev Loc := List Name

/-- The spelling of a location from the root: the only one without links, `.` or `..`. -/
def Loc.path (l : Loc) : Path := Path.ofComponents (.root :: l.map .name)

/-- How many bytes a path may have. -/
def Tree.maxPathBytes : Nat := 4095

/-- The path can be passed to the operating system, and a link can hold it. -/
def Path.valid (p : Path) : Bool :=
  !p.hasNul && p.bytes ≠ [] && p.bytes.length ≤ Tree.maxPathBytes

/-- A node that can stand in a tree. -/
def Node.valid : Node → Bool
  | link target => target.valid
  | dir | file _ _ | device _ => true

/-- A file tree. -/
structure Tree where
  entries : List (Loc × Node)
  nodup : (entries.map Prod.fst).Nodup
  valid : ∀ e ∈ entries, e.2.valid = true
  rooted : ∀ e ∈ entries, ∃ (parent : Loc) (n : Name), e.1 = parent ++ [n] ∧ n.valid = true ∧
    (parent = [] ∨ (parent, Node.dir) ∈ entries)

namespace Tree

/-- The tree that holds nothing but the root directory. -/
def empty : Tree := ⟨[], by simp, by simp, by simp⟩

instance : Inhabited Tree := ⟨empty⟩

/-- What stands at a location; the root is a directory. -/
def get? (t : Tree) (l : Loc) : Option Node :=
  if l = [] then some .dir else (t.entries.find? fun e => e.1 = l).map Prod.snd

/-- Remove what stands at a location and everything below it. -/
def erase (t : Tree) (l : Loc) : Tree where
  entries := t.entries.filter fun e => ¬ l <+: e.1
  nodup := t.nodup.sublist ((List.filter_sublist).map _)
  valid := fun e he => t.valid e (List.mem_filter.mp he).1
  rooted := by
    intro e he
    obtain ⟨hm, hl⟩ := List.mem_filter.mp he
    obtain ⟨p, n, rfl', hn, hp⟩ := t.rooted e hm
    refine ⟨p, n, rfl', hn, hp.imp id fun hd => List.mem_filter.mpr ⟨hd, ?_⟩⟩
    have hnot : ¬ l <+: e.1 := of_decide_eq_true hl
    exact decide_eq_true fun h => hnot (rfl' ▸ h.trans (List.prefix_append p [n]))

/-- The location is free or holds what `n` may replace, in an existing directory, under a valid
name. A directory is replaced by a directory only. -/
def Admits (t : Tree) (l : Loc) (n : Node) : Prop :=
  l ≠ [] ∧ (l.getLast?.all Name.valid) = true ∧ t.get? l.dropLast = some .dir ∧
    (t.get? l = some .dir → n = .dir) ∧ n.valid = true

instance (t : Tree) (l : Loc) (n : Node) : Decidable (t.Admits l n) := by
  unfold Admits; infer_instance

theorem mem_of_get? {t : Tree} {l : Loc} {n : Node} (h : t.get? l = some n) (hl : l ≠ []) :
    (l, n) ∈ t.entries := by
  rw [get?, if_neg hl] at h
  obtain ⟨e, he, rfl⟩ := Option.map_eq_some_iff.mp h
  have := List.find?_some he
  have hm := List.mem_of_find?_eq_some he
  simp only [decide_eq_true_eq] at this
  subst this
  exact hm

theorem ne_nil_of_mem {t : Tree} {e : Loc × Node} (h : e ∈ t.entries) : e.1 ≠ [] := by
  obtain ⟨p, n, hp, -⟩ := t.rooted e h
  simp [hp]

theorem find?_eq_of_mem {es : List (Loc × Node)} (hd : (es.map Prod.fst).Nodup) {e : Loc × Node}
    (h : e ∈ es) : (es.find? fun x => x.1 = e.1) = some e := by
  induction es with
  | nil => simp at h
  | cons x es ih =>
    simp only [List.map_cons, List.nodup_cons] at hd
    rcases List.mem_cons.mp h with rfl | h
    · simp
    · have hne : x.1 ≠ e.1 := fun heq => hd.1 (heq ▸ List.mem_map_of_mem h)
      simp [hne, ih hd.2 h]

theorem get?_of_mem {t : Tree} {l : Loc} {n : Node} (h : (l, n) ∈ t.entries) :
    t.get? l = some n := by
  have hl : l ≠ [] := t.ne_nil_of_mem h
  rw [get?, if_neg hl, find?_eq_of_mem t.nodup h]
  rfl

/-- An entry is listed exactly when the view shows it. -/
theorem mem_entries_iff {t : Tree} {l : Loc} {n : Node} :
    (l, n) ∈ t.entries ↔ l ≠ [] ∧ t.get? l = some n :=
  ⟨fun h => ⟨t.ne_nil_of_mem h, get?_of_mem h⟩, fun h => mem_of_get? h.2 h.1⟩

/-- Write `n` at a location that admits it; otherwise nothing changes. -/
def put (t : Tree) (l : Loc) (n : Node) : Tree :=
  if h : t.Admits l n then
    { entries := (t.entries.filter fun e => e.1 ≠ l) ++ [(l, n)]
      nodup := by
        rw [List.map_append, List.map_cons, List.map_nil, List.nodup_append]
        refine ⟨t.nodup.sublist ((List.filter_sublist).map _), by simp, ?_⟩
        intro a ha b hb
        obtain ⟨e, he, rfl⟩ := List.mem_map.mp ha
        have := (List.mem_filter.mp he).2
        simp only [decide_not, Bool.not_eq_eq_eq_not, Bool.not_true, decide_eq_false_iff_not]
          at this
        rw [List.mem_singleton.mp hb]
        exact this
      valid := by
        intro e he
        rcases List.mem_append.mp he with he | he
        · exact t.valid e (List.mem_filter.mp he).1
        · rw [List.mem_singleton.mp he]
          exact h.2.2.2.2
      rooted := by
        have keep : ∀ p : Loc, (p, Node.dir) ∈ t.entries →
            (p, Node.dir) ∈ (t.entries.filter fun e => e.1 ≠ l) ++ [(l, n)] := by
          intro p hp
          by_cases hpl : p = l
          · subst hpl
            rw [h.2.2.2.1 (get?_of_mem hp)]
            simp
          · exact List.mem_append_left _ (List.mem_filter.mpr ⟨hp, by simpa using hpl⟩)
        intro e he
        rcases List.mem_append.mp he with he | he
        · obtain ⟨p, m, h1, h2, h3⟩ := t.rooted e (List.mem_filter.mp he).1
          exact ⟨p, m, h1, h2, h3.imp id (keep p)⟩
        · rw [List.mem_singleton.mp he]
          refine ⟨l.dropLast, l.getLast h.1, (List.dropLast_concat_getLast h.1).symm, ?_, ?_⟩
          · have := h.2.1
            rwa [List.getLast?_eq_some_getLast h.1] at this
          · by_cases hd : l.dropLast = []
            · exact Or.inl hd
            · exact Or.inr (keep _ (mem_of_get? h.2.2.1 hd)) }
  else t

/-- The names of the entries of a directory, in listing order. -/
def children (t : Tree) (l : Loc) : List Name :=
  t.entries.filterMap fun e => if e.1.dropLast = l then e.1.getLast? else none

/-- Put a name into a list of names, in front of the first one that it does not follow. -/
def insertName (n : Name) : List Name → List Name
  | [] => [n]
  | m :: rest => if n ≤ m then n :: m :: rest else m :: insertName n rest

/-- Some names in byte order. -/
def sortNames : List Name → List Name
  | [] => []
  | n :: rest => insertName n (sortNames rest)

/-- The names of the entries of a directory in byte order. -/
def sortedChildren (t : Tree) (l : Loc) : List Name := sortNames (t.children l)

/-- Everything strictly below a location, by the names that lead there from it. -/
def below (t : Tree) (l : Loc) : List (List Name × Node) :=
  t.entries.filterMap fun e =>
    if l <+: e.1 ∧ e.1 ≠ l then some (e.1.drop l.length, e.2) else none

/-- The order of lists of names, by the first name that differs; a list comes before the longer
lists that begin with it. -/
def namesLe : List Name → List Name → Bool
  | [], _ => true
  | _ :: _, [] => false
  | a :: as, b :: bs => a < b || (a == b && namesLe as bs)

/-- Everything strictly below a location, each directory before its contents and siblings in byte
order of their names: that is the lexicographic order of the lists of names. -/
def sortedBelow (t : Tree) (l : Loc) : List (List Name × Node) :=
  (t.below l).mergeSort fun a b => namesLe a.1 b.1

end Tree

end Zipship
