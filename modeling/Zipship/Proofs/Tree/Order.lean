import Zipship.Proofs.Tree.View

/-!
# The order of lists of names

Names are bytes and are compared byte by byte. `Tree.Precedes` is the order of lists of names that
comes of it: the first name that differs decides, and it is the order in which a walk lists what it
finds. A directory precedes what is in it, and nothing foreign comes between the two
(`Precedes.isPrefix_of_between`).
-/

namespace Zipship.Tree

variable {x y z names : List Name}

/-- The lexicographic order of lists of names, where names are compared byte by byte. -/
def Precedes (x y : List Name) : Prop := List.Lex (· < ·) x y

instance (x y : List Name) : Decidable (Precedes x y) :=
  inferInstanceAs (Decidable (List.Lex (· < ·) x y))

theorem Precedes.irrefl (x : List Name) : ¬ Precedes x x := List.lex_irrefl List.lt_irrefl x

theorem Precedes.asymm (h : Precedes x y) : ¬ Precedes y x := List.lex_asymm List.lt_asymm h

theorem Precedes.ne (h : Precedes x y) : x ≠ y := by
  rintro rfl
  exact Precedes.irrefl _ h

theorem Precedes.trans (h : Precedes x y) (h' : Precedes y z) : Precedes x z :=
  List.lex_trans List.lt_trans h h'

/-- Of two lists of names one precedes the other, or they are the same. -/
theorem precedes_trichotomy (x y : List Name) : Precedes x y ∨ x = y ∨ Precedes y x := by
  by_cases hxy : Precedes x y
  · exact Or.inl hxy
  · by_cases hyx : Precedes y x
    · exact Or.inr (Or.inr hyx)
    · exact Or.inr (Or.inl (List.lex_trichotomous
        (fun _ _ hab hba => List.le_antisymm (List.not_lt.mp hba) (List.not_lt.mp hab))
        hyx hxy))

/-- Names precede whatever else begins with them. -/
theorem precedes_of_isPrefix (h : x <+: y) (hne : x ≠ y) : Precedes x y :=
  lex_of_isPrefix h hne

theorem not_precedes_of_isPrefix (h : x <+: y) : ¬ Precedes y x := by
  by_cases hne : x = y
  · rw [hne]
    exact Precedes.irrefl y
  · exact (precedes_of_isPrefix h hne).asymm

/-- Below entries of one directory, the order of their names decides. -/
theorem precedes_of_lt {a b : Name} (hab : a < b) (hx : names ++ [a] <+: x)
    (hy : names ++ [b] <+: y) : Precedes x y :=
  lex_of_lt hab hx hy

/-- What lies between some names and something that begins with them begins with them, too. -/
theorem Precedes.isPrefix_of_between (hxy : Precedes x y) (hyz : Precedes y z) (hxz : x <+: z) :
    x <+: y := by
  unfold Precedes at hxy hyz
  induction hxy generalizing z with
  | nil => exact List.nil_prefix
  | cons _ ih =>
    obtain ⟨rest, rfl⟩ := hxz
    rw [List.cons_append, List.cons_lex_cons_iff] at hyz
    obtain ⟨-, hyz⟩ := hyz.resolve_left (List.lt_irrefl _)
    exact List.cons_prefix_cons.mpr ⟨rfl, ih hyz (List.prefix_append _ _)⟩
  | rel hab =>
    obtain ⟨rest, rfl⟩ := hxz
    rw [List.cons_append, List.cons_lex_cons_iff] at hyz
    rcases hyz with hba | ⟨rfl, -⟩
    · exact absurd (List.lt_trans hab hba) (List.lt_irrefl _)
    · exact absurd hab (List.lt_irrefl _)

end Zipship.Tree
