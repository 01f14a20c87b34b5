import Mathlib.Data.List.Forall2

/-!
# Lists in step

Two lists whose elements are related place by place: what stands at one place,
and replacing one place of both.
-/

namespace AllvmTools
namespace Library

variable {α β : Type} {R : α → β → Prop}

/-- Lists in step have related elements at the same places. -/
theorem forall₂_getElem? {l : List α} {l' : List β} (h : List.Forall₂ R l l') {i : Nat} {a : α}
    (ha : l[i]? = some a) : ∃ b, l'[i]? = some b ∧ R a b := by
  induction h generalizing i with
  | nil => cases ha
  | @cons a' b' _ _ hab _ ih =>
      cases i with
      | zero =>
          cases ha
          exact ⟨b', rfl, hab⟩
      | succ i => exact ih ha

theorem forall₂_nil_iff {l : List α} {l' : List β} (h : List.Forall₂ R l l') :
    l = [] ↔ l' = [] := by
  rw [← List.length_eq_zero_iff, ← List.length_eq_zero_iff, h.length_eq]

/-- Replacing one element on both sides. -/
theorem forall₂_set_modify {l : List α} {l' : List β} (h : List.Forall₂ R l l') {i : Nat} {a : α}
    {f : β → β} (hab : ∀ b, l'[i]? = some b → R a (f b)) :
    List.Forall₂ R (l.set i a) (l'.modify i f) := by
  induction h generalizing i with
  | nil => simp
  | @cons a' b' _ _ hab' hrest ih =>
      cases i with
      | zero => exact .cons (hab b' rfl) hrest
      | succ i => exact .cons hab' (ih hab)

end Library
end AllvmTools
