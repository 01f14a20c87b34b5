import AllvmTools.Library.Text

/-!
# C strings

A C string is a text that holds no terminator; what the C library does with two of
them it does up to the first terminator.

* `strncmp_eq_zero_iff` — a comparison that reaches the terminator decides equality.
* `afterLast_eq_iff` — what stands behind the last occurrence of a byte.
-/

namespace AllvmTools
namespace Library

/-- A text without terminators inside. -/
structure CString where
  text : Text
  plain : (0 : UInt8) ∉ text

namespace CString

open Text

/-- `strncmp` on two strings, which end with a terminator: the difference of the
first two bytes that differ. -/
def strncmp : Nat → Text → Text → Int
  | 0, _, _ => 0
  | n + 1, s, t =>
      let a := s.headD 0
      let b := t.headD 0
      if a ≠ b then (a.toNat : Int) - b.toNat
      else if a = 0 then 0
      else strncmp n s.tail t.tail

example : strncmp 3 (ascii "cp") (ascii "cpio") < 0 := by decide
example : strncmp 2 (ascii "cp") (ascii "cpio") = 0 := by decide

theorem strncmp_eq_zero_iff {s t : Text} (hs : (0 : UInt8) ∉ s) (ht : (0 : UInt8) ∉ t) {n : Nat}
    (hn : t.length < n) : strncmp n s t = 0 ↔ s = t := by
  have hdiff : ∀ a b : UInt8, a ≠ b → (a.toNat : Int) - b.toNat ≠ 0 := by
    intro a b hne hzero
    apply hne
    apply UInt8.toNat_inj.mp
    omega
  have hpositive : ∀ a : UInt8, a ≠ 0 → a.toNat ≠ 0 :=
    fun a ha hzero => ha (UInt8.toNat_inj.mp hzero)
  -- the bound reaches the terminator of `t`, so a longer `s` differs there
  induction t generalizing s n with
  | nil =>
      obtain ⟨n, rfl⟩ := Nat.exists_eq_succ_of_ne_zero (Nat.ne_of_gt hn)
      cases s with
      | nil => simp [strncmp]
      | cons a s =>
          have ha : a ≠ 0 := fun h => hs (h ▸ List.mem_cons_self)
          simp [strncmp, ha, hpositive a ha]
  | cons b t ih =>
      obtain ⟨n, rfl⟩ := Nat.exists_eq_succ_of_ne_zero (Nat.ne_of_gt (Nat.zero_lt_of_lt hn))
      have hb : b ≠ 0 := fun h => ht (h ▸ List.mem_cons_self)
      cases s with
      | nil => simp [strncmp, hb.symm, hpositive b hb]
      | cons a s =>
          by_cases hab : a = b
          · have hrest := @ih s (fun h => hs (List.mem_cons_of_mem _ h))
              (fun h => ht (List.mem_cons_of_mem _ h)) n (by simpa using hn)
            simp [strncmp, hab, hb, hrest]
          · simp [strncmp, hab, hdiff a b hab]

/-- `strrchr`, as the text from behind its result, or all of it. -/
def afterLast (c : UInt8) (s : Text) : Text :=
  match rfind c s with
  | some pos => s.drop (pos + 1)
  | none => s

/-- A text that stands at the end of another, behind the last occurrence of a byte. -/
def IsLastPart (c : UInt8) (s t : Text) : Prop :=
  c ∉ t ∧ (s = t ∨ ∃ front, s = front ++ c :: t)

theorem afterLast_eq_iff {c : UInt8} {s t : Text} : afterLast c s = t ↔ IsLastPart c s t := by
  unfold afterLast IsLastPart
  cases hfind : rfind c s with
  | none =>
      have hnot := (rfind_eq_none_iff c s).mp hfind
      constructor
      · rintro rfl
        exact ⟨hnot, Or.inl rfl⟩
      · rintro ⟨-, rfl | ⟨front, rfl⟩⟩
        · rfl
        · exact absurd (List.mem_append_right _ List.mem_cons_self) hnot
  | some pos =>
      obtain ⟨l, r, rfl, rfl, hnot⟩ := rfind_eq_some_iff.mp hfind
      have hdrop : (l ++ c :: r).drop (l.length + 1) = r := by simp
      show (l ++ c :: r).drop (l.length + 1) = t ↔ _
      rw [hdrop]
      constructor
      · rintro rfl
        exact ⟨hnot, Or.inr ⟨l, rfl⟩⟩
      · rintro ⟨ht, hwhole | ⟨front, hfront⟩⟩
        · exact absurd (hwhole ▸ List.mem_append_right _ List.mem_cons_self) ht
        · -- both are what stands behind the same last occurrence
          have hfind' := rfind_eq_some_iff.mpr ⟨front, t, hfront, rfl, ht⟩
          have hlength : l.length = front.length := Option.some.inj (hfind.symm.trans hfind')
          exact (List.cons.inj (List.append_inj_right hfront hlength)).2

theorem not_mem_afterLast {c d : UInt8} {s : Text} (h : d ∉ s) : d ∉ afterLast c s := by
  unfold afterLast
  split
  · exact fun hmem => h (List.mem_of_mem_drop hmem)
  · exact h

end CString
end Library
end AllvmTools
