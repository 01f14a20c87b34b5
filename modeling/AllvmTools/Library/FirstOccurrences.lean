import Mathlib.Data.List.Nodup
import Mathlib.Tactic.Common

/-!
# First occurrences

The elements of a list at which a key occurs for the first time, in their order.

* `nodup_firsts` — no key is repeated.
* `exists_mem_firsts` — every key of the list is there.
* `find?_of_mem_firsts` — an element of it is the first one with its key.
-/

namespace AllvmTools
namespace Library
namespace FirstOccurrences

variable {α κ : Type} [DecidableEq κ] (key : α → κ)

/-- The elements whose key is new, where `seen` are the keys before the list. -/
def firsts : List κ → List α → List α
  | _, [] => []
  | seen, a :: rest =>
      if key a ∈ seen then firsts seen rest else a :: firsts (key a :: seen) rest

variable {key}

theorem not_mem_seen_of_mem_firsts {seen : List κ} {l : List α} {a : α}
    (h : a ∈ firsts key seen l) : key a ∉ seen := by
  induction l generalizing seen with
  | nil => cases h
  | cons b rest ih =>
      rw [firsts] at h
      split at h
      · exact ih h
      · next hb =>
          rcases List.mem_cons.mp h with rfl | h
          · exact hb
          · exact fun hseen => ih h (List.mem_cons_of_mem _ hseen)

theorem nodup_firsts (seen : List κ) (l : List α) : ((firsts key seen l).map key).Nodup := by
  induction l generalizing seen with
  | nil => exact List.nodup_nil
  | cons a rest ih =>
      rw [firsts]
      split
      · exact ih seen
      · rw [List.map_cons, List.nodup_cons]
        refine ⟨?_, ih _⟩
        intro hmem
        obtain ⟨b, hb, hkey⟩ := List.mem_map.mp hmem
        exact not_mem_seen_of_mem_firsts hb (hkey ▸ List.mem_cons_self)

/-- Every key of the list was seen before or occurs among the first occurrences. -/
theorem exists_mem_firsts {l : List α} {a : α} (ha : a ∈ l) (seen : List κ) :
    key a ∈ seen ∨ ∃ b ∈ firsts key seen l, key b = key a := by
  induction l generalizing seen with
  | nil => cases ha
  | cons b rest ih =>
      rw [firsts]
      split
      · next hb =>
          rcases List.mem_cons.mp ha with rfl | ha
          · exact Or.inl hb
          · exact ih ha seen
      · rcases List.mem_cons.mp ha with rfl | ha
        · exact Or.inr ⟨a, List.mem_cons_self, rfl⟩
        · rcases ih ha (key b :: seen) with hseen | ⟨c, hc, hkey⟩
          · rcases List.mem_cons.mp hseen with hkey | hseen
            · exact Or.inr ⟨b, List.mem_cons_self, hkey.symm⟩
            · exact Or.inl hseen
          · exact Or.inr ⟨c, List.mem_cons_of_mem _ hc, hkey⟩

/-- A first occurrence is what a search for its key finds. -/
theorem find?_of_mem_firsts {seen : List κ} {l : List α} {a : α} (h : a ∈ firsts key seen l) :
    l.find? (fun b => decide (key b = key a)) = some a := by
  induction l generalizing seen with
  | nil => cases h
  | cons b rest ih =>
      have hseen := not_mem_seen_of_mem_firsts h
      rw [firsts] at h
      split at h
      · next hb =>
          have hne : key b ≠ key a := fun hkey => hseen (hkey ▸ hb)
          rw [List.find?_cons_of_neg (by simpa using hne)]
          exact ih h
      · rcases List.mem_cons.mp h with rfl | h
        · rw [List.find?_cons_of_pos (by simp)]
        · have hne : key b ≠ key a := by
            intro hkey
            exact not_mem_seen_of_mem_firsts h (hkey ▸ List.mem_cons_self)
          rw [List.find?_cons_of_neg (by simpa using hne)]
          exact ih h

/-- And what such a search finds is a first occurrence. -/
theorem mem_firsts_of_find? {seen : List κ} {l : List α} {a : α} (hseen : key a ∉ seen)
    (h : l.find? (fun b => decide (key b = key a)) = some a) : a ∈ firsts key seen l := by
  induction l generalizing seen with
  | nil => cases h
  | cons b rest ih =>
      rw [firsts]
      by_cases hkey : key b = key a
      · rw [List.find?_cons_of_pos (by simpa using hkey)] at h
        cases h
        rw [if_neg hseen]
        exact List.mem_cons_self
      · rw [List.find?_cons_of_neg (by simpa using hkey)] at h
        split
        · exact ih hseen h
        · apply List.mem_cons_of_mem
          apply ih _ h
          intro hmem
          rcases List.mem_cons.mp hmem with heq | hmem
          · exact hkey heq.symm
          · exact hseen hmem

end FirstOccurrences
end Library
end AllvmTools
