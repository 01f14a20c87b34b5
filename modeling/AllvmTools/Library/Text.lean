import Mathlib.Data.Nat.Digits.Lemmas
import Mathlib.Data.List.Infix
import Mathlib.Tactic.Common

/-!
# Byte strings, hexadecimal text and path components

Text is a list of bytes, as a C string is.  This module supplies the three
ingredients every path computation below rests on: unpadded upper-case
hexadecimal rendering (injective, over digits only), the position of the last
occurrence of a byte, and the decomposition of a path into its components.
-/

namespace AllvmTools
namespace Library

/-- A C string without its terminator. -/
abbrev Text := List UInt8

/-- The bytes of an ASCII literal. -/
def ascii (s : String) : Text :=
  s.toList.map Char.toUInt8

namespace Text

/-- Texts are told apart by the first byte of what they start with. -/
theorem append_ne_append_of_head {p q : Text} (hp : p ≠ []) (hq : q ≠ [])
    (hhead : p.head? ≠ q.head?) (a b : Text) : p ++ a ≠ q ++ b := by
  intro h
  apply hhead
  have hfirst := congrArg List.head? h
  rwa [List.head?_append_of_ne_nil p hp, List.head?_append_of_ne_nil q hq] at hfirst

/-! ## Hexadecimal rendering -/

/-- The upper-case digit for a value below sixteen. -/
def hexDigit (d : Nat) : UInt8 :=
  if d < 10 then (48 + d).toUInt8 else (55 + d).toUInt8

/-- Unpadded upper-case hexadecimal text; zero is one digit. -/
def hexUpper (n : Nat) : Text :=
  if n = 0 then [hexDigit 0] else (Nat.digits 16 n).reverse.map hexDigit

theorem hexDigit_injOn {d e : Nat} (hd : d < 16) (he : e < 16)
    (h : hexDigit d = hexDigit e) : d = e := by
  have hall : ∀ d < 16, ∀ e < 16, hexDigit d = hexDigit e → d = e := by decide
  exact hall d hd e he h

/-- Every rendered byte is one of the sixteen digits. -/
theorem exists_of_mem_hexUpper {n : Nat} {c : UInt8} (hc : c ∈ hexUpper n) :
    ∃ d, d < 16 ∧ c = hexDigit d := by
  unfold hexUpper at hc
  split at hc
  · exact ⟨0, by decide, by simpa using hc⟩
  · obtain ⟨d, hd, rfl⟩ := List.mem_map.mp hc
    exact ⟨d, Nat.digits_lt_base (by decide) (List.mem_reverse.mp hd), rfl⟩

theorem hexUpper_ne_nil (n : Nat) : hexUpper n ≠ [] := by
  unfold hexUpper
  split
  · simp
  · simpa [Nat.digits_ne_nil_iff_ne_zero] using ‹¬n = 0›

/-- A byte that is no hexadecimal digit does not occur in rendered text. -/
theorem not_mem_hexUpper {c : UInt8} (n : Nat) (hc : ∀ d < 16, hexDigit d ≠ c) :
    c ∉ hexUpper n := by
  intro hmem
  obtain ⟨d, hd, rfl⟩ := exists_of_mem_hexUpper hmem
  exact hc d hd rfl

private theorem map_hexDigit_inj {xs ys : List Nat}
    (hxs : ∀ d ∈ xs, d < 16) (hys : ∀ d ∈ ys, d < 16)
    (h : xs.map hexDigit = ys.map hexDigit) : xs = ys := by
  induction xs generalizing ys with
  | nil => simpa using h.symm
  | cons x xs ih =>
      cases ys with
      | nil => simp at h
      | cons y ys =>
          simp only [List.map_cons, List.cons.injEq] at h
          obtain ⟨hhead, htail⟩ := h
          have hx : x = y :=
            hexDigit_injOn (hxs x (by simp)) (hys y (by simp)) hhead
          have hrest : xs = ys :=
            ih (fun d hd => hxs d (by simp [hd])) (fun d hd => hys d (by simp [hd])) htail
          rw [hx, hrest]

/-- The digits a value is written with; zero is written with one digit. -/
private def writtenDigits (base n : Nat) : List Nat :=
  if n = 0 then [0] else (Nat.digits base n).reverse

private theorem writtenDigits_lt {base : Nat} (hbase : 1 < base) (n : Nat) :
    ∀ d ∈ writtenDigits base n, d < base := by
  intro d hd
  unfold writtenDigits at hd
  split at hd
  · rw [List.mem_singleton.mp hd]
    omega
  · exact Nat.digits_lt_base hbase (List.mem_reverse.mp hd)

private theorem ofDigits_writtenDigits (base n : Nat) :
    Nat.ofDigits base (writtenDigits base n).reverse = n := by
  unfold writtenDigits
  split
  · simp_all
  · rw [List.reverse_reverse, Nat.ofDigits_digits]

/-- Digits up to base sixteen determine the value. -/
private theorem eq_of_map_writtenDigits {base n m : Nat} (hbase : 1 < base) (hle : base ≤ 16)
    (h : (writtenDigits base n).map hexDigit = (writtenDigits base m).map hexDigit) : n = m := by
  have hsmall : ∀ k, ∀ d ∈ writtenDigits base k, d < 16 :=
    fun k d hd => Nat.lt_of_lt_of_le (writtenDigits_lt hbase k d hd) hle
  have hdigits := map_hexDigit_inj (hsmall n) (hsmall m) h
  rw [← ofDigits_writtenDigits base n, ← ofDigits_writtenDigits base m, hdigits]

private theorem hexUpper_eq_map (n : Nat) : hexUpper n = (writtenDigits 16 n).map hexDigit := by
  unfold hexUpper writtenDigits
  split <;> rfl

/-- Rendering loses nothing: the value is recovered from its digits. -/
theorem hexUpper_injective : Function.Injective hexUpper := by
  intro n m h
  rw [hexUpper_eq_map, hexUpper_eq_map] at h
  exact eq_of_map_writtenDigits (by decide) (Nat.le_refl 16) h

/-! ## Decimal rendering -/

/-- Decimal text, with a sign before negative values. -/
def decimal (i : Int) : Text :=
  let digits := if i = 0 then [hexDigit 0] else (Nat.digits 10 i.natAbs).reverse.map hexDigit
  if i < 0 then 45 :: digits else digits

example : decimal (-120) = ascii "-120" := by decide

private theorem decimal_natCast (n : Nat) :
    decimal n = (writtenDigits 10 n).map hexDigit := by
  unfold decimal writtenDigits
  rw [if_neg (by omega)]
  by_cases hn : n = 0
  · rw [if_pos hn, hn]
    rfl
  · rw [if_neg hn, if_neg (by omega), Int.natAbs_natCast]

theorem decimal_natCast_injective : Function.Injective fun n : Nat => decimal n := by
  intro n m h
  have hdigits : decimal n = decimal m := h
  rw [decimal_natCast, decimal_natCast] at hdigits
  exact eq_of_map_writtenDigits (by decide) (by decide) hdigits

/-- A decimal digit. -/
def IsDigit (b : UInt8) : Prop :=
  ∃ d < 10, b = hexDigit d

/-- The minus sign. -/
def minus : UInt8 := 45

theorem not_isDigit_minus : ¬ IsDigit minus := by
  rintro ⟨d, hd, h⟩
  have hall : ∀ d < 10, minus ≠ hexDigit d := by decide
  exact hall d hd h

/-- A value is written as its sign and its digits. -/
theorem decimal_eq (i : Int) :
    decimal i = (if i < 0 then [minus] else []) ++ decimal (i.natAbs : Int) := by
  unfold decimal
  rw [if_neg (show ¬ (i.natAbs : Int) < 0 by omega), Int.natAbs_natCast]
  by_cases hneg : i < 0
  · rw [if_pos hneg, if_pos hneg, if_neg (show ¬ i = 0 by omega),
      if_neg (show ¬ (i.natAbs : Int) = 0 by omega)]
    rfl
  · rw [if_neg hneg, if_neg hneg]
    by_cases hzero : i = 0
    · rw [if_pos hzero, if_pos (show (i.natAbs : Int) = 0 by omega)]
      rfl
    · rw [if_neg hzero, if_neg (show ¬ (i.natAbs : Int) = 0 by omega)]
      rfl

theorem isDigit_of_mem_decimal {n : Nat} {b : UInt8} (hb : b ∈ decimal (n : Int)) : IsDigit b := by
  rw [decimal_natCast] at hb
  obtain ⟨d, hd, rfl⟩ := List.mem_map.mp hb
  exact ⟨d, writtenDigits_lt (by decide) n d hd, rfl⟩

theorem decimal_natCast_ne_nil (n : Nat) : decimal (n : Int) ≠ [] := by
  rw [decimal_natCast]
  unfold writtenDigits
  split
  · exact List.cons_ne_nil _ _
  · next hn =>
      simpa [Nat.digits_ne_nil_iff_ne_zero] using hn

theorem length_decimal_le {n k : Nat} (hk : 0 < k) (hn : n < 10 ^ k) :
    (decimal (n : Int)).length ≤ k := by
  rw [decimal_natCast, List.length_map]
  unfold writtenDigits
  split
  · exact hk
  · rw [List.length_reverse]
    exact (Nat.digits_length_le_iff (by decide) n).mpr hn

theorem decimal_injective : Function.Injective decimal := by
  intro i j h
  rw [decimal_eq i, decimal_eq j] at h
  have hhead : ∀ n : Nat, ∀ t : Text, decimal (n : Int) ≠ minus :: t := by
    intro n t heq
    exact not_isDigit_minus (isDigit_of_mem_decimal (heq ▸ List.mem_cons_self))
  -- the sign is the first byte, or there is none
  by_cases hi : i < 0
  · by_cases hj : j < 0
    · rw [if_pos hi, if_pos hj, List.append_cancel_left_eq] at h
      have habs : i.natAbs = j.natAbs := decimal_natCast_injective h
      omega
    · rw [if_pos hi, if_neg hj] at h
      exact absurd h.symm (hhead _ _)
  · by_cases hj : j < 0
    · rw [if_neg hi, if_pos hj] at h
      exact absurd h (hhead _ _)
    · rw [if_neg hi, if_neg hj, List.append_cancel_left_eq] at h
      have habs : i.natAbs = j.natAbs := decimal_natCast_injective h
      omega

/-- The number that is written with so many ones. -/
def repunit (k : Nat) : Nat :=
  Nat.ofDigits 10 (List.replicate k 1)

theorem decimal_repunit {k : Nat} (hk : 0 < k) :
    decimal (repunit k : Int) = List.replicate k (hexDigit 1) := by
  have hdigits : Nat.digits 10 (repunit k) = List.replicate k 1 := by
    apply Nat.digits_ofDigits 10 (by decide)
    · intro d hd
      rw [List.eq_of_mem_replicate hd]
      decide
    · intro hne
      rw [List.getLast_replicate]
      decide
  have hzero : repunit k ≠ 0 := by
    intro hzero
    rw [hzero, Nat.digits_zero] at hdigits
    have hlength := congrArg List.length hdigits
    rw [List.length_replicate] at hlength
    exact absurd hlength.symm (by simp only [List.length_nil]; omega)
  rw [decimal_natCast]
  unfold writtenDigits
  rw [if_neg hzero, hdigits, List.reverse_replicate, List.map_replicate]

/-- Ten digits fit 32 bits where they are ones. -/
theorem repunit_le {k : Nat} (hk : k ≤ 10) : repunit k ≤ 1111111111 := by
  have hall : ∀ k ≤ 10, repunit k ≤ 1111111111 := by decide
  exact hall k hk

theorem repunit_pos {k : Nat} (hk : 0 < k) : 0 < repunit k := by
  rw [Nat.pos_iff_ne_zero]
  intro hzero
  have hone := decimal_repunit hk
  rw [hzero] at hone
  have hmem : hexDigit 0 ∈ List.replicate k (hexDigit 1) := by
    rw [← hone]
    exact List.mem_cons_self
  exact absurd (List.eq_of_mem_replicate hmem) (by decide)

/-! ## The last occurrence of a byte -/

/-- `std::string::rfind`: the index of the last occurrence, `none` for `npos`. -/
def rfind (c : UInt8) : Text → Option Nat
  | [] => none
  | b :: rest =>
      match rfind c rest with
      | some pos => some (pos + 1)
      | none => if b = c then some 0 else none

theorem rfind_eq_none_iff (c : UInt8) (s : Text) : rfind c s = none ↔ c ∉ s := by
  induction s with
  | nil => simp [rfind]
  | cons b rest ih =>
      cases hrest : rfind c rest with
      | some pos =>
          have hmem : c ∈ rest := by
            by_contra hnot
            simp [ih.mpr hnot] at hrest
          simp [rfind, hrest, hmem]
      | none =>
          have hnot : c ∉ rest := ih.mp hrest
          by_cases hb : b = c
          · simp [rfind, hrest, hb]
          · simp [rfind, hrest, hb, hnot, Ne.symm hb]

/-- The index found splits the text at an occurrence with none behind it. -/
theorem rfind_eq_some_iff {c : UInt8} {s : Text} {pos : Nat} :
    rfind c s = some pos ↔ ∃ l r, s = l ++ c :: r ∧ l.length = pos ∧ c ∉ r := by
  induction s generalizing pos with
  | nil => simp [rfind]
  | cons b rest ih =>
      cases hrest : rfind c rest with
      -- an occurrence in the rest comes behind one at the front
      | some q =>
          obtain ⟨l, r, hsplit, hlen, hnot⟩ := ih.mp hrest
          constructor
          · intro h
            have hpos : q + 1 = pos := by simpa [rfind, hrest] using h
            exact ⟨b :: l, r, by simp [hsplit], by simp [hlen, hpos], hnot⟩
          · rintro ⟨l', r', hsplit', hlen', hnot'⟩
            cases l' with
            | nil =>
                obtain ⟨-, htail⟩ := List.cons.inj hsplit'
                exact absurd (by simp [← htail, hsplit]) hnot'
            | cons b' l' =>
                obtain ⟨-, htail⟩ := List.cons.inj hsplit'
                have hq : some q = some l'.length :=
                  hrest.symm.trans (ih.mpr ⟨l', r', htail, rfl, hnot'⟩)
                simp only [List.length_cons] at hlen'
                simp only [rfind, hrest]
                rw [Option.some.inj hq, hlen']
      | none =>
          have hnot : c ∉ rest := (rfind_eq_none_iff c rest).mp hrest
          constructor
          · intro h
            simp only [rfind, hrest] at h
            split at h
            · next hb => exact ⟨[], rest, by simp [hb], by simpa using h, hnot⟩
            · simp at h
          · rintro ⟨l', r', hsplit', hlen', hnot'⟩
            cases l' with
            | nil =>
                obtain ⟨hb, -⟩ := List.cons.inj hsplit'
                simp only [rfind, hrest, hb, if_true]
                simpa using hlen'
            | cons b' l' =>
                obtain ⟨-, htail⟩ := List.cons.inj hsplit'
                exact absurd (by simp [htail]) hnot

/-- A text with an occurrence is split at its last one. -/
theorem exists_split_of_mem {c : UInt8} {s : Text} (h : c ∈ s) :
    ∃ l r, s = l ++ c :: r ∧ c ∉ r := by
  cases hfind : rfind c s with
  | none => exact absurd h ((rfind_eq_none_iff c s).mp hfind)
  | some pos =>
      obtain ⟨l, r, hsplit, -, hnot⟩ := rfind_eq_some_iff.mp hfind
      exact ⟨l, r, hsplit, hnot⟩

/-- The first occurrence of a byte separates a text in one way only. -/
theorem append_cons_inj_left {c : UInt8} {a a' r r' : Text} (ha : c ∉ a) (ha' : c ∉ a')
    (h : a ++ c :: r = a' ++ c :: r') : a = a' ∧ r = r' := by
  induction a generalizing a' with
  | nil =>
      cases a' with
      | nil => exact ⟨rfl, (List.cons.inj h).2⟩
      | cons b' a' =>
          have hb : c = b' := (List.cons.inj h).1
          exact absurd (by simp [hb]) ha'
  | cons b a ih =>
      cases a' with
      | nil =>
          have hb : b = c := (List.cons.inj h).1
          exact absurd (by simp [hb]) ha
      | cons b' a' =>
          obtain ⟨hb, hrest⟩ := List.cons.inj h
          simp only [List.mem_cons, not_or] at ha ha'
          obtain ⟨haa, hrr⟩ := ih ha.2 ha'.2 hrest
          exact ⟨by rw [hb, haa], hrr⟩

end Text
end Library
end AllvmTools
