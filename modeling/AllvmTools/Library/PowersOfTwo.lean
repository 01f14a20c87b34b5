import Mathlib.Algebra.Group.Nat.Defs
import Mathlib.Data.Nat.Size
import Mathlib.Tactic.Common

/-!
# Rounding up to a power of two

A number is or-ed with itself, shifted by one, two, four and so on: every bit below
its highest one is set then, and the successor is a power of two.

* `smear_eq` — the bits that are set.
* `succ_smear_pred` — the power of two that a positive number is rounded up to.
-/

namespace AllvmTools
namespace Library
namespace PowersOfTwo

/-- `v |= v >> n` for the shifts in their order. -/
def smear (v : Nat) (shifts : List Nat) : Nat :=
  shifts.foldl (fun v n => v ||| v >>> n) v

/-- The bits of `w` are those of `v`, each spread over the `n` places from its own
downwards. -/
def SpreadOver (v n w : Nat) : Prop :=
  ∀ i, w.testBit i = true ↔ ∃ d < n, v.testBit (i + d) = true

theorem spreadOver_one (v : Nat) : SpreadOver v 1 v := by
  intro i
  simp

/-- A shift by the width that is reached doubles it. -/
theorem SpreadOver.double {v n w : Nat} (h : SpreadOver v n w) :
    SpreadOver v (n + n) (w ||| w >>> n) := by
  intro i
  rw [Nat.testBit_or, Bool.or_eq_true, Nat.testBit_shiftRight, h i, h (n + i)]
  constructor
  · rintro (⟨d, hd, hbit⟩ | ⟨d, hd, hbit⟩)
    · exact ⟨d, by omega, hbit⟩
    · exact ⟨n + d, by omega, by rwa [show i + (n + d) = n + i + d by omega]⟩
  · rintro ⟨d, hd, hbit⟩
    by_cases hlow : d < n
    · exact Or.inl ⟨d, hlow, hbit⟩
    · exact Or.inr ⟨d - n, by omega, by rwa [show n + i + (d - n) = i + d by omega]⟩

/-- Spread over as many places as there are bits, the highest bit fills all below. -/
theorem SpreadOver.eq {v n w : Nat} (h : SpreadOver v n w) (hv : v < 2 ^ n) :
    w = 2 ^ v.size - 1 := by
  apply Nat.eq_of_testBit_eq
  intro i
  rw [Nat.testBit_two_pow_sub_one, Bool.eq_iff_iff, h i, decide_eq_true_iff, Nat.lt_size]
  constructor
  · rintro ⟨d, -, hbit⟩
    have hle := Nat.ge_two_pow_of_testBit hbit
    exact Nat.le_trans (Nat.pow_le_pow_right Nat.two_pos (Nat.le_add_right i d)) hle
  · intro hle
    -- some bit from place `i` on is set
    have hne : v >>> i ≠ 0 := by
      rw [Nat.shiftRight_eq_div_pow]
      exact Nat.ne_of_gt (Nat.div_pos hle (Nat.two_pow_pos i))
    obtain ⟨d, hbit⟩ := Nat.exists_testBit_of_ne_zero hne
    rw [Nat.testBit_shiftRight] at hbit
    refine ⟨d, ?_, hbit⟩
    by_contra hd
    have hlt : v < 2 ^ (i + d) :=
      Nat.lt_of_lt_of_le hv (Nat.pow_le_pow_right Nat.two_pos (by omega))
    rw [Nat.testBit_lt_two_pow hlt] at hbit
    cases hbit

/-- The five shifts for a number of 32 bits. -/
theorem smear_eq {v : Nat} (hv : v < 2 ^ 32) : smear v [1, 2, 4, 8, 16] = 2 ^ v.size - 1 :=
  (spreadOver_one v).double.double.double.double.double.eq hv

/-- A positive number is rounded up to the least power of two that is no less. -/
theorem succ_smear_pred {v : Nat} (hpos : 0 < v) (hv : v ≤ 2 ^ 32) :
    smear (v - 1) [1, 2, 4, 8, 16] + 1 = 2 ^ (v - 1).size := by
  rw [smear_eq (by omega), Nat.sub_add_cancel (Nat.two_pow_pos _)]

theorem le_two_pow_size_pred (v : Nat) : v ≤ 2 ^ (v - 1).size := by
  have hlt := Nat.lt_size_self (v - 1)
  omega

theorem two_pow_size_pred_le {v n : Nat} (hpos : 0 < v) (hv : v ≤ 2 ^ n) :
    2 ^ (v - 1).size ≤ 2 ^ n :=
  Nat.pow_le_pow_right Nat.two_pos (Nat.size_le.mpr (by omega))

end PowersOfTwo
end Library
end AllvmTools
