import Zipship.Proofs.Tree.Confined
import Zipship.Proofs.Tree.Weight

/-!
# Removing several places

Places of which none is inside another can be removed one after another without getting in each
other's way: around each of them the tree looks as it did before the others were gone
(`SameAround.eraseAll`). So each takes away what was counted for it at the start
(`weightAt_eraseAll`).
-/

namespace Zipship.Tree

variable {t t' : Tree} {root l k : Loc} {a b : List Name} {ls : List (List Name)}
  {weight : Loc → Node → Nat}

/-! ## Removing several places -/

/-- The tree without what stands at some places below a location. -/
def eraseAll (t : Tree) (root : Loc) (ls : List (List Name)) : Tree :=
  ls.foldl (fun t names => t.erase (root ++ names)) t

theorem eraseAll_append (ls ms : List (List Name)) :
    t.eraseAll root (ls ++ ms) = (t.eraseAll root ls).eraseAll root ms :=
  List.foldl_append

theorem get?_eraseAll (hne : ∀ names ∈ ls, names ≠ []) :
    (t.eraseAll root ls).get? k = if ∃ names ∈ ls, root ++ names <+: k then none else t.get? k := by
  induction ls generalizing t with
  | nil => simp [eraseAll]
  | cons names ls ih =>
    obtain ⟨hnames, hls⟩ := List.forall_mem_cons.mp hne
    have hstep : t.eraseAll root (names :: ls) = (t.erase (root ++ names)).eraseAll root ls := rfl
    rw [hstep, ih hls, get?_erase (by simp [hnames])]
    simp only [List.exists_mem_cons_iff]
    by_cases hlater : ∃ q ∈ ls, root ++ q <+: k
    · simp only [if_pos hlater, if_pos (Or.inr hlater)]
    · simp only [if_neg hlater, or_iff_left hlater]

theorem eraseAll_of_get?_eq_none (h : ∀ names ∈ ls, t.get? (root ++ names) = none) :
    t.eraseAll root ls = t := by
  induction ls with
  | nil => rfl
  | cons names ls ih =>
    obtain ⟨hnames, hls⟩ := List.forall_mem_cons.mp h
    show (t.erase (root ++ names)).eraseAll root ls = t
    rw [erase_of_get?_eq_none hnames, ih hls]

/-! ## Trees that agree around a place -/

/-- The trees show the same on the way to a place, there, and below it. -/
def SameAround (t t' : Tree) (l : Loc) : Prop :=
  ∀ k, k <+: l ∨ l <+: k → t'.get? k = t.get? k

namespace SameAround

theorem refl (t : Tree) (l : Loc) : SameAround t t l := fun _ _ => rfl

theorem get?_eq (h : SameAround t t' l) : t'.get? l = t.get? l := h l (Or.inl List.prefix_rfl)

theorem trans {t'' : Tree} (h : SameAround t t' l) (h' : SameAround t' t'' l) :
    SameAround t t'' l :=
  fun k hk => (h' k hk).trans (h k hk)

/-- A place is as it was when something else is removed that neither contains it nor is in it. -/
theorem erase (hapart : ¬ a <+: b ∧ ¬ b <+: a) :
    SameAround t (t.erase (root ++ a)) (root ++ b) := by
  intro k hk
  have hne : root ++ a ≠ [] := fun hnil =>
    hapart.1 ((List.append_eq_nil_iff.mp hnil).2 ▸ List.nil_prefix)
  rw [get?_erase hne, if_neg]
  intro hak
  rcases hk with hkb | hbk
  · exact hapart.1 ((List.prefix_append_right_inj root).mp (hak.trans hkb))
  · rcases List.prefix_or_prefix_of_prefix hak hbk with hab | hba
    · exact hapart.1 ((List.prefix_append_right_inj root).mp hab)
    · exact hapart.2 ((List.prefix_append_right_inj root).mp hba)

/-- The same for several removals. -/
theorem eraseAll (hapart : ∀ a ∈ ls, ¬ a <+: b ∧ ¬ b <+: a) :
    SameAround t (t.eraseAll root ls) (root ++ b) := by
  induction ls generalizing t with
  | nil => exact .refl t _
  | cons a ls ih =>
    obtain ⟨hfirst, hmore⟩ := List.forall_mem_cons.mp hapart
    exact (SameAround.erase hfirst).trans (ih hmore)

theorem weightAt_eq (h : SameAround t t' l) : t'.weightAt weight l = t.weightAt weight l :=
  weightAt_congr fun k hk => h k (Or.inr hk)

end SameAround

/-- What the removal of several places takes away, of which none is inside another. -/
theorem weightAt_eraseAll (hapart : ls.Pairwise fun a b => ¬ a <+: b ∧ ¬ b <+: a) :
    (t.eraseAll root ls).weightAt weight root +
        (ls.map fun names => t.weightAt weight (root ++ names)).sum = t.weightAt weight root := by
  induction ls generalizing t with
  | nil => rfl
  | cons names ls ih =>
    obtain ⟨hfirst, hmore⟩ := List.pairwise_cons.mp hapart
    have hlater : (ls.map fun later => (t.erase (root ++ names)).weightAt weight (root ++ later)) =
        ls.map fun later => t.weightAt weight (root ++ later) :=
      List.map_congr_left fun later hmem => (SameAround.erase (hfirst later hmem)).weightAt_eq
    have hremoved : (t.erase (root ++ names)).weightAt weight root +
        t.weightAt weight (root ++ names) = t.weightAt weight root :=
      weightAt_erase (List.prefix_append root names)
    have hrest : (t.eraseAll root (names :: ls)).weightAt weight root + _ =
        (t.erase (root ++ names)).weightAt weight root := ih hmore
    rw [hlater] at hrest
    rw [List.map_cons, List.sum_cons]
    omega

end Zipship.Tree
