import Zipship.Proofs.Tree.Edit

/-!
# What edits keep

An edit that fails leaves what it changed until then. So a property of the tree holds however the
edit ends only if every step of it keeps the property. `Keeps` says so of an edit, and what holds of
the value that it gives when it succeeds; the rules here take it from the steps to the whole.
-/

namespace Zipship.Edit

variable {ε δ α β : Type} {I : Tree → Prop} {Q : α → Prop} {S : β → Prop} {x : Edit ε α}
  {f : α → Edit ε β} {a : α} {t : Tree}

/-- The edit keeps `I`, also when it fails, and gives nothing but what satisfies `Q`. -/
def Keeps (I : Tree → Prop) (x : Edit ε α) (Q : α → Prop) : Prop :=
  ∀ t, I t → I (x.exec t).2 ∧ ∀ a, (x.exec t).1 = .ok a → Q a

theorem Keeps.exec (h : Keeps I x Q) (ht : I t) : I (x.exec t).2 := (h t ht).1

theorem keeps_pure (h : Q a) : Keeps I (pure a : Edit ε α) Q := by
  intro t ht
  refine ⟨ht, fun b hb => ?_⟩
  cases hb
  exact h

theorem keeps_throw {e : ε} : Keeps I (throw e : Edit ε α) Q := by
  intro t ht
  refine ⟨ht, fun b hb => ?_⟩
  cases hb

theorem keeps_get : Keeps I (get : Edit ε Tree) I := by
  intro t ht
  refine ⟨ht, fun b hb => ?_⟩
  cases hb
  exact ht

theorem keeps_inspect {look : Tree → Except ε α} (h : ∀ t a, I t → look t = .ok a → Q a) :
    Keeps I (inspect look) Q :=
  fun t ht => ⟨ht, fun a ha => h t a ht ha⟩

/-- A step that fails changes nothing. -/
theorem keeps_step {change : Tree → Except ε (α × Tree)}
    (h : ∀ t a t', I t → change t = .ok (a, t') → I t' ∧ Q a) : Keeps I (step change) Q := by
  intro t ht
  rw [exec_step]
  cases hchange : change t with
  | error e =>
    refine ⟨ht, fun b hb => ?_⟩
    cases hb
  | ok result =>
    obtain ⟨hkept, hgives⟩ := h t result.1 result.2 ht hchange
    refine ⟨hkept, fun b hb => ?_⟩
    cases hb
    exact hgives

theorem Keeps.onError {wording : ε → δ} (h : Keeps I x Q) : Keeps I (x.onError wording) Q := by
  intro t ht
  obtain ⟨hkept, hgives⟩ := h t ht
  rw [exec_onError]
  cases hx : x.exec t with
  | mk result t' =>
    rw [hx] at hkept hgives
    cases result with
    | error e =>
      refine ⟨hkept, fun b hb => ?_⟩
      cases hb
    | ok a =>
      refine ⟨hkept, fun b hb => ?_⟩
      cases hb
      exact hgives a rfl

theorem Keeps.bind (hx : Keeps I x Q) (hf : ∀ a, Q a → Keeps I (f a) S) :
    Keeps I (x >>= f) S := by
  intro t ht
  obtain ⟨hkept, hgives⟩ := hx t ht
  rw [exec_bind]
  cases hfirst : x.exec t with
  | mk result t' =>
    rw [hfirst] at hkept hgives
    cases result with
    | error e =>
      refine ⟨hkept, fun b hb => ?_⟩
      cases hb
    | ok a => exact hf a (hgives a rfl) t' hkept

end Zipship.Edit
