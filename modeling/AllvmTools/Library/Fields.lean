import Mathlib.Data.List.Flatten
import AllvmTools.Library.ListsInStep
import AllvmTools.Library.Text

/-!
# Texts made of fields

A text that is a row of fields, of which some hold digits only: what can stand at
each position, the piece of a long text that a field gets, and rows of fields of
which every field is one digit.
-/

namespace AllvmTools
namespace Library
namespace Fields

open Text

/-! ## Positions -/

/-- What can stand at a position. -/
inductive Cell where
  | byte
  | digit
  | sign
deriving DecidableEq, Repr

/-- The byte can stand there. -/
def Cell.Admits : Cell → UInt8 → Prop
  | byte, _ => True
  | digit, b => IsDigit b
  | sign, b => b = minus

theorem admits_replicate {c : Cell} {t : Text} {n : Nat} (ht : ∀ b ∈ t, c.Admits b)
    (hn : t.length = n) : List.Forall₂ Cell.Admits (List.replicate n c) t := by
  subst hn
  induction t with
  | nil => exact .nil
  | cons b t ih =>
      apply List.Forall₂.cons (ht b List.mem_cons_self)
      exact ih fun b hb => ht b (List.mem_cons_of_mem _ hb)

/-- A sign and a digit at one position tell texts apart. -/
theorem ne_of_sign_of_digit {cells cells' : List Cell} {t t' : Text}
    (h : List.Forall₂ Cell.Admits cells t) (h' : List.Forall₂ Cell.Admits cells' t') {i : Nat}
    (hsign : cells[i]? = some .sign) (hdigit : cells'[i]? = some .digit) : t ≠ t' := by
  intro heq
  obtain ⟨b, hb, hminus⟩ := forall₂_getElem? h hsign
  obtain ⟨b', hb', hisdigit⟩ := forall₂_getElem? h' hdigit
  have hsame : b = b' := by
    rw [heq, hb'] at hb
    exact (Option.some.inj hb).symm
  have hminus' : b = minus := hminus
  apply not_isDigit_minus
  rw [← hminus', hsame]
  exact hisdigit

/-! ## Pieces -/

/-- The `n` bytes of an endless text from `a` on. -/
def slice (f : Nat → UInt8) (a n : Nat) : Text :=
  (List.range' a n).map f

@[simp] theorem length_slice (f : Nat → UInt8) (a n : Nat) : (slice f a n).length = n := by
  simp [slice]

theorem slice_append (f : Nat → UInt8) {a b n : Nat} (hb : a + n = b) (m : Nat) :
    slice f a n ++ slice f b m = slice f a (n + m) := by
  subst hb
  unfold slice
  rw [← List.map_append, List.range'_append_1]

/-- A piece in which one byte is repeated. -/
theorem slice_eq_replicate {f : Nat → UInt8} {a n : Nat} {b : UInt8}
    (h : ∀ i, a ≤ i → i < a + n → f i = b) : slice f a n = List.replicate n b := by
  apply List.eq_replicate_iff.mpr
  refine ⟨length_slice f a n, ?_⟩
  intro c hc
  obtain ⟨i, hi, rfl⟩ := List.mem_map.mp hc
  obtain ⟨hle, hlt⟩ := List.mem_range'_1.mp hi
  exact h i hle hlt

/-- Pieces of these lengths, one behind the other. -/
def slices (f : Nat → UInt8) : Nat → List Nat → List Text
  | _, [] => []
  | a, n :: rest => slice f a n :: slices f (a + n) rest

theorem flatten_slices (f : Nat → UInt8) (a : Nat) (lengths : List Nat) :
    (slices f a lengths).flatten = slice f a lengths.sum := by
  induction lengths generalizing a with
  | nil => rfl
  | cons n rest ih => rw [slices, List.flatten_cons, ih, slice_append f rfl, List.sum_cons]

theorem map_length_slices (f : Nat → UInt8) (a : Nat) (lengths : List Nat) :
    (slices f a lengths).map List.length = lengths := by
  induction lengths generalizing a with
  | nil => rfl
  | cons n rest ih => rw [slices, List.map_cons, ih, length_slice]

/-! ## Flags -/

/-- A field that is always one digit. -/
def IsFlag (t : Text) : Prop :=
  ∃ b, IsDigit b ∧ t = [b]

theorem IsFlag.length {t : Text} (h : IsFlag t) : t.length = 1 := by
  obtain ⟨b, -, rfl⟩ := h
  rfl

theorem length_flags {flags : List Text} (h : ∀ t ∈ flags, IsFlag t) :
    flags.flatten.length = flags.length := by
  induction flags with
  | nil => rfl
  | cons t rest ih =>
      have hfirst := (h t List.mem_cons_self).length
      have hrest := ih fun t ht => h t (List.mem_cons_of_mem _ ht)
      rw [List.flatten_cons, List.length_append, hfirst, hrest, List.length_cons, Nat.add_comm]

theorem isDigit_of_mem_flags {flags : List Text} (h : ∀ t ∈ flags, IsFlag t) {b : UInt8}
    (hb : b ∈ flags.flatten) : IsDigit b := by
  obtain ⟨t, ht, hbt⟩ := List.mem_flatten.mp hb
  obtain ⟨d, hd, rfl⟩ := h t ht
  rwa [List.mem_singleton.mp hbt]

/-- What stands in a row of one flag. -/
theorem eq_of_mem_flags {flags : List Text} {b c : UInt8} (h : ∀ t ∈ flags, t = [b])
    (hc : c ∈ flags.flatten) : c = b := by
  obtain ⟨t, ht, hct⟩ := List.mem_flatten.mp hc
  rw [h t ht] at hct
  exact List.mem_singleton.mp hct

/-- Rows of flags are told apart by what they are written as. -/
theorem flags_inj {flags flags' : List Text} (h : ∀ t ∈ flags, IsFlag t)
    (h' : ∀ t ∈ flags', IsFlag t) (heq : flags.flatten = flags'.flatten) : flags = flags' := by
  apply List.eq_iff_flatten_eq.mpr
  refine ⟨heq, ?_⟩
  have hcount : flags.length = flags'.length := by
    rw [← length_flags h, ← length_flags h', heq]
  rw [List.map_congr_left fun t ht => (h t ht).length,
    List.map_congr_left fun t ht => (h' t ht).length, List.map_const', List.map_const', hcount]

end Fields
end Library
end AllvmTools
