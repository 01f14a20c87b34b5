import Mathlib.Tactic.Ring
import AllvmTools.Library.Text

/-!
# Little-endian fields

Fixed-width little-endian numbers in byte strings: writing cuts a value to its
field, reading the field back gives the value modulo its range.  A field that is
read backwards has its bytes swapped.
-/

namespace AllvmTools
namespace Library
namespace LittleEndian

/-- The lowest `width` bytes of `n`, lowest first. -/
def le : Nat → Nat → List UInt8
  | 0, _ => []
  | width + 1, n => (n % 256).toUInt8 :: le width (n / 256)

/-- The value of a field. -/
def ofLE : List UInt8 → Nat
  | [] => 0
  | b :: rest => b.toNat + 256 * ofLE rest

@[simp] theorem length_le (width n : Nat) : (le width n).length = width := by
  induction width generalizing n with
  | zero => rfl
  | succ width ih => simp [le, ih]

/-- Reading a written field. -/
theorem ofLE_le (width n : Nat) : ofLE (le width n) = n % 256 ^ width := by
  induction width generalizing n with
  | zero => simp [le, ofLE, Nat.mod_one]
  | succ width ih =>
      have hbyte : ((n % 256).toUInt8).toNat = n % 256 := by
        simp [Nat.toUInt8]
      rw [le, ofLE, ih, hbyte, Nat.pow_succ', Nat.mod_mul]

/-- A value that fits its field is read back. -/
theorem ofLE_le_of_lt {width n : Nat} (h : n < 256 ^ width) : ofLE (le width n) = n := by
  rw [ofLE_le, Nat.mod_eq_of_lt h]

/-- Writing what was read. -/
theorem le_ofLE {field : List UInt8} {width : Nat} (h : field.length = width) :
    le width (ofLE field) = field := by
  induction field generalizing width with
  | nil =>
      subst h
      rfl
  | cons b rest ih =>
      subst h
      have hbyte := b.toNat_lt
      have hlow : (b.toNat + 256 * ofLE rest) % 256 = b.toNat := by omega
      have hhigh : (b.toNat + 256 * ofLE rest) / 256 = ofLE rest := by omega
      rw [List.length_cons, ofLE, le, hlow, hhigh, ih rfl]
      simp

/-- What does not fit the field is cut off. -/
theorem le_mod (width n : Nat) : le width (n % 256 ^ width) = le width n := by
  induction width generalizing n with
  | zero => rfl
  | succ width ih =>
      rw [le, le, Nat.pow_succ', Nat.mod_mul_right_mod, Nat.mod_mul_right_div_self, ih]

theorem ofLE_append (l l' : List UInt8) : ofLE (l ++ l') = ofLE l + 256 ^ l.length * ofLE l' := by
  induction l with
  | nil => simp [ofLE]
  | cons b rest ih =>
      rw [List.cons_append, ofLE, ofLE, ih, List.length_cons, Nat.pow_succ]
      ring

theorem ofLE_lt (l : List UInt8) : ofLE l < 256 ^ l.length := by
  induction l with
  | nil => simp [ofLE]
  | cons b rest ih =>
      have hbyte := b.toNat_lt
      rw [ofLE, List.length_cons, Nat.pow_succ]
      omega

/-- Enough bytes begin with a number. -/
theorem exists_le_append {width : Nat} {bytes : List UInt8} (h : width ≤ bytes.length) :
    ∃ n rest, n < 256 ^ width ∧ bytes = le width n ++ rest := by
  have hlength := List.length_take_of_le h
  have hlt := ofLE_lt (bytes.take width)
  rw [hlength] at hlt
  refine ⟨ofLE (bytes.take width), bytes.drop width, hlt, ?_⟩
  rw [le_ofLE hlength, List.take_append_drop]

/-! ## Reversed fields -/

/-- The lowest `width` bytes of `n` in reverse order. -/
def byteSwap (width n : Nat) : Nat :=
  ofLE (le width n).reverse

theorem byteSwap_lt (width n : Nat) : byteSwap width n < 256 ^ width := by
  have h := ofLE_lt (le width n).reverse
  rwa [List.length_reverse, length_le] at h

theorem byteSwap_mod (width n : Nat) : byteSwap width (n % 256 ^ width) = byteSwap width n := by
  unfold byteSwap
  rw [le_mod]

/-- The lowest byte becomes the highest. -/
theorem byteSwap_succ (width n : Nat) :
    byteSwap (width + 1) n = byteSwap width (n / 256) + 256 ^ width * (n % 256) := by
  have hbyte : ((n % 256).toUInt8).toNat = n % 256 := by
    simp [Nat.toUInt8]
  unfold byteSwap
  rw [le, List.reverse_cons, ofLE_append, List.length_reverse, length_le, ofLE, ofLE, hbyte,
    Nat.mul_zero, Nat.add_zero]

/-- The lower part of a field becomes the upper one. -/
theorem byteSwap_add (upper lower n : Nat) :
    byteSwap (upper + lower) n =
      byteSwap upper (n / 256 ^ lower) + 256 ^ upper * byteSwap lower n := by
  induction lower generalizing n with
  | zero =>
      rw [Nat.add_zero, Nat.pow_zero, Nat.div_one]
      rfl
  | succ lower ih =>
      rw [← Nat.add_assoc, byteSwap_succ, ih, byteSwap_succ, Nat.div_div_eq_div_mul,
        Nat.pow_succ', Nat.pow_add]
      ring

end LittleEndian
end Library
end AllvmTools
