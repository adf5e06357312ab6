import Mathlib.Data.List.TakeWhile
import Mathlib.Tactic.Common
import Zipship.Tree.Bytecode

/-!
# Which names are those of compiled files

`isBytecode_iff` says without any cutting which names have the extension of a compiled file: those
that continue something by `.pyc` or `.pyo`. A name that is only a dot and letters has no extension.
-/

namespace Zipship.Name

/-- What ends a name has the given extension if something precedes its dot. -/
theorem extension?_eq_some_iff {n : Name} {e : Bytes} (he : dot ∉ e) (hne : e ≠ []) :
    n.extension? = some e ↔ ∃ stem : Bytes, stem ≠ [] ∧ n = stem ++ dot :: e := by
  have hsplit := List.takeWhile_append_dropWhile (p := (· ≠ dot)) (l := n.reverse)
  unfold extension?
  constructor
  · intro h
    split_ifs at h
    split at h
    · cases h
    · cases h
    · rename_i d c rest hdrop
      have hd : d = dot := by
        have := List.head?_dropWhile_not (fun x : UInt8 => decide (x ≠ dot)) n.reverse
        rw [hdrop] at this
        simpa using this
      have htake : e = (n.reverse.takeWhile (· ≠ dot)).reverse := (Option.some.inj h).symm
      refine ⟨(c :: rest).reverse, by simp, ?_⟩
      rw [hdrop, hd] at hsplit
      have := congrArg List.reverse hsplit
      rw [List.reverse_reverse, List.reverse_append, ← htake] at this
      simp [← this]
  · rintro ⟨stem, hstem, rfl⟩
    have hrev : (stem ++ dot :: e).reverse = e.reverse ++ dot :: stem.reverse := by simp
    have hdots : stem ++ dot :: e ≠ Name.up := by
      intro h
      have hlen := congrArg List.length h
      have h1 := List.length_pos_iff.mpr hstem
      have h2 := List.length_pos_iff.mpr hne
      have hup : Name.up.length = 2 := by decide
      rw [hup, List.length_append, List.length_cons] at hlen
      omega
    have hall : ∀ x ∈ e.reverse, decide (x ≠ dot) = true := by
      intro x hx
      simp only [decide_eq_true_eq]
      rintro rfl
      exact he (List.mem_reverse.mp hx)
    rw [if_neg hdots]
    simp only [hrev, List.takeWhile_append_of_pos hall, List.dropWhile_append_of_pos hall]
    obtain ⟨c, cs, hcs⟩ : ∃ c cs, stem.reverse = c :: cs :=
      List.exists_cons_of_ne_nil (by simpa using hstem)
    simp [hcs]

/-- The names of compiled files. -/
theorem isBytecode_iff {n : Name} : n.isBytecode = true ↔
    ∃ stem : Bytes, stem ≠ [] ∧ (n = stem ++ ".pyc" ∨ n = stem ++ ".pyo") := by
  have hpyc := extension?_eq_some_iff (n := n) (e := "pyc") (by decide) (by decide)
  have hpyo := extension?_eq_some_iff (n := n) (e := "pyo") (by decide) (by decide)
  have hany : n.isBytecode = true ↔
      n.extension? = some ("pyc" : Bytes) ∨ n.extension? = some ("pyo" : Bytes) := by
    unfold isBytecode bytecodeExtensions
    cases n.extension? with
    | none => simp
    | some e => simp
  rw [hany, hpyc, hpyo]
  constructor
  · rintro (⟨stem, hs, rfl⟩ | ⟨stem, hs, rfl⟩)
    · exact ⟨stem, hs, Or.inl rfl⟩
    · exact ⟨stem, hs, Or.inr rfl⟩
  · rintro ⟨stem, hs, rfl | rfl⟩
    · exact Or.inl ⟨stem, hs, rfl⟩
    · exact Or.inr ⟨stem, hs, rfl⟩

end Zipship.Name

namespace Zipship

/-- What an interpreter makes: directories of one name, and anything else with one of two
extensions. -/
theorem Node.isBytecode_iff {name : Name} {node : Node} : node.isBytecode name = true ↔
    node = .dir ∧ name = "__pycache__" ∨ node ≠ .dir ∧ ∃ stem extension : Bytes,
      stem ≠ [] ∧ extension ∈ ([".pyc", ".pyo"] : List Bytes) ∧ name = stem ++ extension := by
  have hname : name.isBytecode = true ↔ ∃ stem extension : Bytes,
      stem ≠ [] ∧ extension ∈ ([".pyc", ".pyo"] : List Bytes) ∧ name = stem ++ extension := by
    rw [Name.isBytecode_iff]
    constructor
    · rintro ⟨stem, hstem, h | h⟩
      · exact ⟨stem, ".pyc", hstem, by simp, h⟩
      · exact ⟨stem, ".pyo", hstem, by simp, h⟩
    · rintro ⟨stem, extension, hstem, hextension, h⟩
      rw [List.mem_cons, List.mem_singleton] at hextension
      rcases hextension with rfl | rfl
      · exact ⟨stem, hstem, Or.inl h⟩
      · exact ⟨stem, hstem, Or.inr h⟩
  cases node with
  | dir =>
    have hdir : isBytecode name .dir = true ↔ name = "__pycache__" := decide_eq_true_iff
    simp [hdir]
  | file _ _ | link _ | device _ => simp [isBytecode, hname]

end Zipship
