import Mathlib.Data.Set.Basic
import Mathlib.Logic.Function.Basic
import Mathlib.Tactic.Common

/-!
# Stores that remember what was computed

Results are kept in a store under a place for each key; several keys may share a
place.  The store is sound if what is found under a key is a result for it.

* `Sound.store`, `Sound.frame` — storing a result, and changes elsewhere.
-/

namespace AllvmTools
namespace Library
namespace MemoFiles

variable {κ φ β : Type*} {keys : Set κ} {place : κ → φ} {result : κ → β → Prop}

/-- Keys that share a place have the same results. -/
def Determines (keys : Set κ) (place : κ → φ) (result : κ → β → Prop) : Prop :=
  ∀ k ∈ keys, ∀ k' ∈ keys, place k = place k' → ∀ b, result k b → result k' b

/-- What is found for a key is a result for it. -/
def Sound (keys : Set κ) (place : κ → φ) (result : κ → β → Prop) (store : φ → Option β) : Prop :=
  ∀ k ∈ keys, ∀ b, store (place k) = some b → result k b

/-- An empty store remembers nothing. -/
theorem sound_of_empty {store : φ → Option β} (h : ∀ k ∈ keys, store (place k) = none) :
    Sound keys place result store := by
  intro k hk b hb
  rw [h k hk] at hb
  cases hb

/-- A store that is the same in the places of the keys. -/
theorem Sound.frame {store store' : φ → Option β} (h : Sound keys place result store)
    (hsame : ∀ k ∈ keys, store' (place k) = store (place k)) : Sound keys place result store' := by
  intro k hk b hb
  rw [hsame k hk] at hb
  exact h k hk b hb

/-- **Storing a result** in the place of its key. -/
theorem Sound.store [DecidableEq φ] (hdetermines : Determines keys place result)
    {store : φ → Option β} (h : Sound keys place result store) {k : κ} (hk : k ∈ keys) {b : β}
    (hb : result k b) : Sound keys place result (Function.update store (place k) (some b)) := by
  intro k' hk' b' hb'
  by_cases hplace : place k' = place k
  · rw [hplace, Function.update_self] at hb'
    cases hb'
    exact hdetermines k hk k' hk' hplace.symm b hb
  · rw [Function.update_of_ne hplace] at hb'
    exact h k' hk' b' hb'

end MemoFiles
end Library
end AllvmTools
