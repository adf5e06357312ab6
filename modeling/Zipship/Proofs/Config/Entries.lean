import Zipship.Config.Schema
import Zipship.Proofs.Toml.Distinct
import Zipship.Proofs.Tree.Lookup

/-!
# Reading entry by entry

A table and a list are both read by taking one thing after another, and the first one that does not
fit is reported (`FirstRefused`). For a table this is the first one in byte order of the keys
(`FirstRefusedByKey`). Whether something fits never depends on what was read before it (`Decides`),
so both the success and the error of the whole are told by its parts (`foldlM_ok_iff`,
`foldlM_error_iff`).

`Reads` says that one setting is what a table says. It is kept by every step that reads another
entry (`foldlM_reflects`).
-/

namespace Zipship.Config

open Toml (Value Table)

/-! ## The first thing that is refused -/

section First

variable {α β σ ε : Type} {Admitted : α → Prop} {Refused : α → ε → Prop} {xs : List α} {x : α}
  {step : σ → α → Except ε σ} {s : σ} {e : ε} {result : Except ε α} {f : α → β} {b : β}

/-- The first one of some things that is refused is refused because of `e`. -/
def FirstRefused (Admitted : α → Prop) (Refused : α → ε → Prop) (xs : List α) (e : ε) : Prop :=
  ∃ before x after, xs = before ++ x :: after ∧ (∀ y ∈ before, Admitted y) ∧ Refused x e

theorem not_firstRefused_nil : ¬ FirstRefused Admitted Refused [] e := by
  rintro ⟨before, x, after, h, -⟩
  simp at h

theorem firstRefused_cons : FirstRefused Admitted Refused (x :: xs) e ↔
    Refused x e ∨ Admitted x ∧ FirstRefused Admitted Refused xs e := by
  constructor
  · rintro ⟨before, y, after, heq, hbefore, hy⟩
    cases before with
    | nil =>
      obtain ⟨rfl, -⟩ := List.cons.inj heq
      exact Or.inl hy
    | cons z before =>
      obtain ⟨rfl, rfl⟩ := List.cons.inj heq
      obtain ⟨hx, hbefore⟩ := List.forall_mem_cons.mp hbefore
      exact Or.inr ⟨hx, before, y, after, rfl, hbefore, hy⟩
  · rintro (hx | ⟨hx, before, y, after, rfl, hbefore, hy⟩)
    · exact ⟨[], x, xs, rfl, by simp, hx⟩
    · exact ⟨x :: before, y, after, rfl, List.forall_mem_cons.mpr ⟨hx, hbefore⟩, hy⟩

/-- Whether a step succeeds, and if not how it fails, depends only on what it takes. -/
def Decides (step : σ → α → Except ε σ) (Admitted : α → Prop) (Refused : α → ε → Prop) (x : α) :
    Prop :=
  ∀ s, ((∃ s', step s x = .ok s') ↔ Admitted x) ∧ ∀ e, step s x = .error e ↔ Refused x e

/-- A fold succeeds exactly if each step is admitted. -/
theorem foldlM_ok_iff (hstep : ∀ x ∈ xs, Decides step Admitted Refused x) :
    (∃ s', xs.foldlM step s = .ok s') ↔ ∀ x ∈ xs, Admitted x := by
  induction xs generalizing s with
  | nil => exact ⟨fun _ => by simp, fun _ => ⟨s, rfl⟩⟩
  | cons x xs ih =>
    obtain ⟨hx, hxs⟩ := List.forall_mem_cons.mp hstep
    rw [List.forall_mem_cons, ← (hx s).1, List.foldlM_cons]
    constructor
    · rintro ⟨s', h⟩
      obtain ⟨next, hnext, h⟩ := bind_eq_ok.mp h
      exact ⟨⟨next, hnext⟩, (ih hxs).mp ⟨s', h⟩⟩
    · rintro ⟨⟨next, hnext⟩, h⟩
      obtain ⟨s', h⟩ := (ih hxs (s := next)).mpr h
      exact ⟨s', bind_eq_ok.mpr ⟨next, hnext, h⟩⟩

/-- A fold fails as the first step does that is refused. -/
theorem foldlM_error_iff (hstep : ∀ x ∈ xs, Decides step Admitted Refused x) :
    xs.foldlM step s = .error e ↔ FirstRefused Admitted Refused xs e := by
  induction xs generalizing s with
  | nil => exact ⟨nofun, fun h => absurd h not_firstRefused_nil⟩
  | cons x xs ih =>
    obtain ⟨hx, hxs⟩ := List.forall_mem_cons.mp hstep
    rw [firstRefused_cons, ← (hx s).1, ← (hx s).2 e, List.foldlM_cons]
    cases hnext : step s x with
    | error e' => simp [bind, Except.bind]
    | ok next => simpa [bind, Except.bind] using ih hxs (s := next)

theorem bind_pure_ok :
    (result >>= fun a => pure (f a)) = .ok b ↔ ∃ a, result = .ok a ∧ f a = b := by
  cases result <;> simp [bind, Except.bind, pure, Except.pure]

theorem bind_pure_error : (result >>= fun a => pure (f a)) = .error e ↔ result = .error e := by
  cases result <;> simp [bind, Except.bind, pure, Except.pure]

end First

/-! ## Texts, paths and lists -/

section Shapes

variable {v : Value} {s : String} {p : Path} {texts : List String} {items : List Value} {e : Unfit}

/-- The value says a text. -/
def SaysText (v : Value) (s : String) : Prop := v = .string s

/-- The value says a path: it holds texts only, and so says only a path whose bytes are one. -/
def SaysPath (v : Value) (p : Path) : Prop := ∃ s, v = .string s ∧ p = ⟨s⟩

/-- A list as a document writes it. -/
def writeTexts (texts : List String) : Value := .array (texts.map .string)

/-- The value says a list of texts. -/
def SaysTexts (v : Value) (texts : List String) : Prop := v = writeTexts texts

/-- A value says one thing at most. -/
def Functional {α : Type} (Says : Value → α → Prop) : Prop :=
  ∀ v x y, Says v x → Says v y → x = y

theorem saysText_functional : Functional SaysText :=
  fun _ _ _ h h' => Value.string.inj (h.symm.trans h')

theorem saysPath_functional : Functional SaysPath := by
  rintro v _ _ ⟨s, hs, rfl⟩ ⟨s', hs', rfl⟩
  rw [Value.string.inj (hs.symm.trans hs')]

theorem saysTexts_functional : Functional SaysTexts := by
  intro v texts texts' h h'
  have hwritten : writeTexts texts = writeTexts texts' := h.symm.trans h'
  have hmap : texts.map Value.string = texts'.map Value.string := by
    simpa [writeTexts] using hwritten
  exact List.map_injective_iff.mpr (fun _ _ => Value.string.inj) hmap

theorem readText_ok_iff : readText v = .ok s ↔ v = .string s := by
  cases v <;> simp [readText]

theorem readText_error_iff :
    readText v = .error e ↔ (∀ s, v ≠ .string s) ∧ e = .wrongShape v .text := by
  cases v <;> simp [readText, eq_comm]

theorem readPath_ok_iff : readPath v = .ok p ↔ SaysPath v p := by
  cases v <;> simp [readPath, SaysPath, eq_comm]

theorem readPath_error_iff :
    readPath v = .error e ↔ (∀ s, v ≠ .string s) ∧ e = .wrongShape v .path := by
  cases v <;> simp [readPath, eq_comm]

/-- The value is a text. -/
def IsText (v : Value) : Prop := ∃ s, v = .string s

/-- Why a value is not a list of texts: it is no list, or an item of it is no text. -/
inductive TextsRefused : Value → Unfit → Prop
  | shape {v : Value} (h : ∀ items, v ≠ .array items) : TextsRefused v (.wrongShape v .list)
  | item {items : List Value} {e : Unfit}
      (h : FirstRefused IsText (fun v e => ¬ IsText v ∧ e = .wrongShape v .text) items e) :
      TextsRefused (.array items) e

theorem mapM_readText_ok_iff : items.mapM readText = .ok texts ↔ items = texts.map .string := by
  induction items generalizing texts with
  | nil => cases texts <;> simp [pure, Except.pure]
  | cons v items ih =>
    rw [List.mapM_cons]
    constructor
    · intro h
      obtain ⟨s, hs, h⟩ := bind_eq_ok.mp h
      obtain ⟨rest, hrest, rfl⟩ := bind_pure_ok.mp h
      rw [readText_ok_iff.mp hs, ih.mp hrest, List.map_cons]
    · intro h
      cases texts with
      | nil => cases h
      | cons s texts =>
        obtain ⟨rfl, rfl⟩ := List.cons.inj h
        exact bind_eq_ok.mpr ⟨s, rfl, bind_pure_ok.mpr ⟨texts, ih.mpr rfl, rfl⟩⟩

theorem mapM_readText_error_iff : items.mapM readText = .error e ↔
    FirstRefused IsText (fun v e => ¬ IsText v ∧ e = .wrongShape v .text) items e := by
  induction items with
  | nil => exact ⟨nofun, fun h => absurd h not_firstRefused_nil⟩
  | cons v items ih =>
    rw [List.mapM_cons, firstRefused_cons, ← ih]
    cases hv : readText v with
    | error e' =>
      obtain ⟨hno, rfl⟩ := readText_error_iff.mp hv
      have htext : ¬ IsText v := fun ⟨s, hs⟩ => hno s hs
      simp [bind, Except.bind, htext, eq_comm]
    | ok s =>
      obtain rfl := readText_ok_iff.mp hv
      have htext : IsText (.string s) := ⟨s, rfl⟩
      simp only [htext, not_true_eq_false, false_and, false_or, true_and]
      exact bind_pure_error

theorem readTexts_ok_iff : readTexts v = .ok texts ↔ v = writeTexts texts := by
  cases v with
  | array items => simpa [readTexts, writeTexts] using mapM_readText_ok_iff
  | _ => simp [readTexts, writeTexts]

theorem readTexts_error_iff : readTexts v = .error e ↔ TextsRefused v e := by
  cases v with
  | array items =>
    refine mapM_readText_error_iff.trans ⟨.item, fun h => ?_⟩
    cases h with
    | shape h => exact absurd rfl (h items)
    | item h => exact h
  | _ =>
    constructor
    · rintro ⟨⟩
      exact .shape (by simp)
    · rintro ⟨⟩
      rfl

end Shapes

/-! ## What a table says -/

section Tables

variable {α : Type} {entries entries' : Table} {key key' : String} {v : Value}
  {Says : Value → α → Prop} {default actual x : α}

/-- A setting is what the table says under its key, or else its default. -/
def Reads (entries : Table) (key : String) (Says : Value → α → Prop)
    (default actual : α) : Prop :=
  (∀ v, (key, v) ∈ entries → Says v actual) ∧
    (key ∉ entries.map Prod.fst → actual = default)

theorem reads_nil : Reads [] key Says default default := ⟨by simp, fun _ => rfl⟩

theorem reads_snoc (hnew : key ∉ entries.map Prod.fst) (hv : Says v x) :
    Reads (entries ++ [(key, v)]) key Says default x := by
  refine ⟨fun v' hv' => ?_, fun habsent => absurd (by simp) habsent⟩
  rcases List.mem_append.mp hv' with hv' | hv'
  · exact absurd (List.mem_map_of_mem hv') hnew
  · obtain ⟨-, rfl⟩ := Prod.mk.inj (List.mem_singleton.mp hv')
    exact hv

/-- What is said about other settings does not matter. -/
theorem Reads.snoc (h : Reads entries key Says default actual) (hne : key ≠ key') :
    Reads (entries ++ [(key', v)]) key Says default actual := by
  refine ⟨fun v' hv' => ?_, fun habsent => h.2 ?_⟩
  · rcases List.mem_append.mp hv' with hv' | hv'
    · exact h.1 v' hv'
    · exact absurd (Prod.mk.inj (List.mem_singleton.mp hv')).1 hne
  · simp only [List.map_append, List.mem_append, not_or] at habsent
    exact habsent.1

/-- In which order things are said does not matter. -/
theorem Reads.of_perm (h : Reads entries key Says default actual) (hperm : entries.Perm entries') :
    Reads entries' key Says default actual :=
  ⟨fun v hv => h.1 v (hperm.mem_iff.mpr hv),
    fun habsent => h.2 fun hmem => habsent ((hperm.map _).mem_iff.mp hmem)⟩

/-- What a table says about a setting is one thing. -/
theorem Reads.unique (hone : Functional Says)
    (h : Reads entries key Says default actual) (h' : Reads entries key Says default x) :
    actual = x := by
  by_cases hkey : key ∈ entries.map Prod.fst
  · obtain ⟨⟨_, v⟩, hv, rfl⟩ := List.mem_map.mp hkey
    exact hone v _ _ (h.1 v hv) (h'.1 v hv)
  · rw [h.2 hkey, h'.2 hkey]

end Tables

/-! ## Tables in the order of their keys -/

section Order

variable {σ ε : Type} {step : σ → String × Value → Except ε σ} {R : σ → Table → Prop} {s s' : σ}
  {entries done : Table} {Admitted : String → Value → Prop} {Refused : String → Value → ε → Prop}
  {e : ε}

/-- The first entry of a table in byte order of the keys that is refused is refused because of
`e`. -/
def FirstRefusedByKey (Admitted : String → Value → Prop) (Refused : String → Value → ε → Prop)
    (entries : Table) (e : ε) : Prop :=
  ∃ key v, (key, v) ∈ entries ∧ Refused key v e ∧
    ∀ key' v', (key', v') ∈ entries → key' < key → Admitted key' v'

theorem inKeyOrder_perm (entries : Table) : (inKeyOrder entries).Perm entries :=
  List.mergeSort_perm _ _

theorem inKeyOrder_nodup (hnodup : (entries.map Prod.fst).Nodup) :
    ((inKeyOrder entries).map Prod.fst).Nodup :=
  ((inKeyOrder_perm entries).map _).nodup_iff.mpr hnodup

theorem inKeyOrder_pairwise (hnodup : (entries.map Prod.fst).Nodup) :
    (inKeyOrder entries).Pairwise fun a b => a.1 < b.1 := by
  have hle : (inKeyOrder entries).Pairwise fun a b => a.1 ≤ b.1 := by
    refine (List.pairwise_mergeSort ?_ ?_ entries).imp fun h => of_decide_eq_true h
    · intro a b c hab hbc
      exact decide_eq_true (String.le_trans (of_decide_eq_true hab) (of_decide_eq_true hbc))
    · intro a b
      simpa using String.le_total a.1 b.1
  have hne := List.pairwise_map.mp (inKeyOrder_nodup hnodup)
  exact hle.imp₂ (fun a b hab hne =>
    String.not_le.mp fun hba => hne (String.le_antisymm hab hba)) hne

theorem firstRefused_inKeyOrder (hnodup : (entries.map Prod.fst).Nodup) :
    FirstRefused (fun x => Admitted x.1 x.2) (fun x => Refused x.1 x.2) (inKeyOrder entries) e ↔
      FirstRefusedByKey Admitted Refused entries e := by
  have hsorted := inKeyOrder_pairwise hnodup
  constructor
  · rintro ⟨before, ⟨key, v⟩, after, heq, hbefore, hrefused⟩
    have hmem : ∀ x, x ∈ entries ↔ x ∈ before ∨ x = (key, v) ∨ x ∈ after := by
      intro x
      rw [← (inKeyOrder_perm entries).mem_iff, heq, List.mem_append, List.mem_cons]
    refine ⟨key, v, (hmem _).mpr (by simp), hrefused, fun key' v' hmem' hlt => ?_⟩
    rw [heq, List.pairwise_append, List.pairwise_cons] at hsorted
    rcases (hmem _).mp hmem' with hmem' | heq | hmem'
    · exact hbefore _ hmem'
    · obtain ⟨rfl, -⟩ := Prod.mk.inj heq
      exact absurd hlt (String.lt_irrefl _)
    · exact absurd hlt (String.lt_asymm (hsorted.2.1.1 _ hmem'))
  · rintro ⟨key, v, hmem, hrefused, hfirst⟩
    obtain ⟨before, after, heq⟩ := List.append_of_mem ((inKeyOrder_perm entries).mem_iff.mpr hmem)
    refine ⟨before, (key, v), after, heq, fun x hx => ?_, hrefused⟩
    have hx' : x ∈ entries := by
      rw [← (inKeyOrder_perm entries).mem_iff, heq]
      exact List.mem_append_left _ hx
    rw [heq, List.pairwise_append] at hsorted
    exact hfirst x.1 x.2 hx' (hsorted.2.2 x hx _ List.mem_cons_self)

/-- What each step says of its entry, a fold over entries with different keys says of all. -/
theorem foldlM_reflects
    (hstep : ∀ x ∈ entries, ∀ {s s' done}, R s done → x.1 ∉ done.map Prod.fst →
      step s x = .ok s' → R s' (done ++ [x]))
    (hnodup : ((done ++ entries).map Prod.fst).Nodup) (hdone : R s done)
    (hfold : entries.foldlM step s = .ok s') : R s' (done ++ entries) := by
  induction entries generalizing s done with
  | nil =>
    cases hfold
    rwa [List.append_nil]
  | cons entry entries ih =>
    obtain ⟨next, hnext, hfold⟩ := bind_eq_ok.mp hfold
    have hsplit : done ++ entry :: entries = done ++ [entry] ++ entries := by simp
    have hnew : entry.1 ∉ done.map Prod.fst := by
      rw [List.map_append, List.nodup_append] at hnodup
      exact fun hmem => hnodup.2.2 _ hmem _ (by simp) rfl
    obtain ⟨hentry, hstep⟩ := List.forall_mem_cons.mp hstep
    rw [hsplit] at hnodup ⊢
    exact ih hstep hnodup (hentry hdone hnew hnext) hfold

end Order

end Zipship.Config
