import Zipship.Proofs.Tree.Agreement

/-!
# Trees without links

Where there are no links, a path leads where its components say, step by step: a name goes down and
`..` goes back up (`Path.lexical`). Whether it leads anywhere still depends on the tree, since every
directory on the way has to be there, those that `..` goes back from included.
-/

namespace Zipship

namespace Component

/-- Where a step goes from a location. -/
def goFrom (l : Loc) : Component → Loc
  | root => []
  | here => l
  | up => l.dropLast
  | name n => l ++ [n]

end Component

namespace Path

variable {p q : Path} {cwd l : Loc} {names : List Name}

/-- Where the components of a path lead to. -/
def lexical (cwd : Loc) (p : Path) : Loc := p.components.foldl Component.goFrom cwd

/-- Where pieces lead to, of which `.` does nothing. -/
def along (l : Loc) (pieces : List Name) : Loc :=
  ((pieces.filter (· ≠ Name.here)).map Component.ofPiece).foldl Component.goFrom l

theorem lexical_eq_along : p.lexical cwd = along (p.start cwd) p.pieces := by
  unfold lexical components start along
  split_ifs <;> rfl

theorem along_cons (l : Loc) (piece : Name) (rest : List Name) : along l (piece :: rest) =
    if piece = Name.here then along l rest
    else if piece = Name.up then along l.dropLast rest
    else along (l ++ [piece]) rest := by
  unfold along
  by_cases hhere : piece = Name.here
  · simp [hhere]
  · by_cases hup : piece = Name.up
    · have hne : Name.up ≠ Name.here := by decide
      simp [hup, hne, Component.ofPiece, Component.goFrom]
    · simp [hhere, hup, Component.ofPiece, Component.goFrom]

theorem along_append (l : Loc) (a b : List Name) : along l (a ++ b) = along (along l a) b := by
  simp [along, List.foldl_append]

/-- A last `.` does nothing. -/
theorem along_route (l : Loc) (p : Path) : along l p.route = along l p.pieces := by
  unfold route
  split_ifs
  · rw [along_append]
    rfl
  · rfl

theorem foldl_goFrom_name (l : Loc) (names : List Name) :
    (names.map Component.name).foldl Component.goFrom l = l ++ names := by
  induction names generalizing l with
  | nil => exact (List.append_nil l).symm
  | cons n names ih =>
    rw [List.map_cons, List.foldl_cons, ih, Component.goFrom, List.append_assoc]
    rfl

/-- Names lead down from where the path leads that they are appended to. -/
theorem lexical_append (h : q.components = p.components ++ names.map .name) :
    q.lexical cwd = p.lexical cwd ++ names := by
  unfold lexical
  rw [h, List.foldl_append, foldl_goFrom_name]

end Path

/-- A symbolic link. -/
def Node.isLink : Node → Bool
  | link _ => true
  | dir | file _ _ | device _ => false

namespace Tree

variable {t t' opened : Tree} {cwd cur l place : Loc} {p : Path} {links : Nat}
  {names : List Name} {pos : Position}

/-- No symbolic link is in the tree. -/
def LinkFree (t : Tree) : Prop := ∀ l target, t.get? l ≠ some (.link target)

theorem linkFree_iff : t.LinkFree ↔ ∀ e ∈ t.entries, e.2.isLink = false := by
  constructor
  · rintro h ⟨l, node⟩ he
    cases node with
    | link target => exact absurd (get?_of_mem he) (h l target)
    | dir | file _ _ | device _ => rfl
  · intro h l target hget
    have hl : l ≠ [] := by
      rintro rfl
      rw [get?_nil] at hget
      cases hget
    have hlink : (Node.link target).isLink = false := h _ (mem_of_get? hget hl)
    cases hlink

instance : Decidable t.LinkFree := decidable_of_iff _ linkFree_iff.symm

namespace LinkFree

theorem of_subset (h : t.LinkFree) (hsub : ∀ k node, t'.get? k = some node → t.get? k = some node) :
    t'.LinkFree := fun l target hget => h l target (hsub l _ hget)

theorem of_agreeOff (h : t.LinkFree) (hagree : AgreeOff t t' place) : t'.LinkFree := by
  intro l target hget
  by_cases hl : l = place
  · exact hagree.leaf'.2 target (hl ▸ hget)
  · rw [hagree.agree l hl] at hget
    exact h l target hget

theorem loc_of_follow (h : t.LinkFree) (hf : t.follow links cur names = .ok pos) :
    pos.loc = Path.along cur names := by
  induction names generalizing cur with
  | nil =>
    rw [follow_nil] at hf
    cases hf
    rfl
  | cons piece rest ih =>
    rw [follow_cons (dir_of_follow_cons hf)] at hf
    rw [Path.along_cons]
    split_ifs at hf with hhere hup
    · rw [if_pos hhere, ih hf]
    · rw [if_neg hhere, if_pos hup, ih hf]
    · rw [if_neg hhere, if_neg hup]
      cases hget : t.get? (cur ++ [piece]) with
      | none =>
        rw [hget] at hf
        cases hf
      | some node =>
        rw [hget] at hf
        cases node with
        | link target => exact absurd hget (h _ target)
        | dir | file _ _ | device _ => exact ih hf

/-- **Where a path leads** without links. -/
theorem loc_of_resolve (h : t.LinkFree) (hr : t.resolve cwd p = .ok pos) :
    pos.loc = p.lexical cwd := by
  rw [h.loc_of_follow (resolve_ok hr).2, Path.along_route, Path.lexical_eq_along]

theorem loc_of_locate (h : t.LinkFree) (hl : t.locate cwd p = .ok l) : l = p.lexical cwd := by
  rw [Path.lexical_eq_along, ← Path.along_route]
  unfold locate at hl
  obtain ⟨⟨⟩, -, hl⟩ := bind_eq_ok.mp hl
  obtain ⟨⟨pos, last⟩, hlast, hl⟩ := bind_eq_ok.mp hl
  cases last with
  | some last =>
    obtain ⟨above, hroute, hhere, hup, -, hf, -⟩ := resolveLast_some hlast
    simp only at hl
    split_ifs at hl
    cases hl
    rw [hroute, Path.along_append, ← h.loc_of_follow hf, Path.along_cons, if_neg hhere, if_neg hup]
    rfl
  | none =>
    cases hl
    unfold resolveLast at hlast
    cases hroute : p.route.getLast? with
    | none =>
      rw [hroute] at hlast
      cases hlast
      rw [List.getLast?_eq_none_iff.mp hroute]
      rfl
    | some last =>
      rw [hroute] at hlast
      simp only at hlast
      by_cases hdots : last = Name.here ∨ last = Name.up
      · rw [if_pos hdots] at hlast
        obtain ⟨found, hf, hfound⟩ := bind_eq_ok.mp hlast
        cases hfound
        exact h.loc_of_follow hf
      · rw [if_neg hdots] at hlast
        obtain ⟨found, -, hfound⟩ := bind_eq_ok.mp hlast
        split_ifs at hfound
        cases hfound

/-- A file is created where the path says. -/
theorem place_of_create (h : t.LinkFree) (hcreate : create cwd p t = .ok (place, opened)) :
    place = p.lexical cwd := by
  obtain ⟨pos, hr, rfl⟩ := resolve_create hcreate
  exact (h.of_agreeOff (agreeOff_create hcreate)).loc_of_resolve hr

end LinkFree

end Tree

end Zipship
