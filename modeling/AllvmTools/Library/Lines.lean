import Mathlib.Data.List.DropRight
import AllvmTools.Library.Text

/-!
# Lines and white space

The lines of a text that ends at a terminator, without the empty ones, and the
white space at the ends of a text.

* `nonBlankLines_line` — a line is read up to its line feed.
* `trim_of_padded` — blanks in front of a text that has none at its ends.
-/

namespace AllvmTools
namespace Library
namespace Lines

/-! ## Lines -/

/-- Skips line ends: a line feed, alone or behind a carriage return. -/
def skipLineEnds : Text → Text
  | 10 :: rest => skipLineEnds rest
  | 13 :: 10 :: rest => skipLineEnds rest
  | rest => rest

/-- A text up to its next line end or terminator, and from there. -/
def splitLine : Text → Text × Text
  | [] => ([], [])
  | b :: rest =>
      if b = 0 ∨ b = 10 ∨ b = 13 ∧ rest.head? = some 10 then
        ([], b :: rest)
      else
        (b :: (splitLine rest).1, (splitLine rest).2)

theorem length_skipLineEnds_le (text : Text) : (skipLineEnds text).length ≤ text.length := by
  induction text using skipLineEnds.induct with
  | case1 rest ih =>
      rw [skipLineEnds, List.length_cons]
      omega
  | case2 rest ih =>
      rw [skipLineEnds, List.length_cons, List.length_cons]
      omega
  | case3 text hfeed hreturn =>
      rw [skipLineEnds.eq_3 text hfeed hreturn]

theorem length_splitLine_le (text : Text) : (splitLine text).2.length ≤ text.length := by
  induction text with
  | nil => exact Nat.le_refl _
  | cons b rest ih =>
      rw [splitLine]
      split
      · exact Nat.le_refl _
      · rw [List.length_cons]
        exact Nat.le_succ_of_le ih

/-- What follows a line is shorter than the text it was read from. -/
theorem length_rest_lt {text : Text} {b : UInt8} {rest : Text}
    (hskip : skipLineEnds text = b :: rest) : (splitLine rest).2.length < text.length := by
  have hskipped := length_skipLineEnds_le text
  have hsplit := length_splitLine_le rest
  rw [hskip, List.length_cons] at hskipped
  omega

/-- The lines that are not empty. -/
def nonBlankLines (text : Text) : List Text :=
  match hskip : skipLineEnds text with
  | [] => []
  | b :: rest =>
      if b = 0 then
        []
      else
        have := length_rest_lt hskip
        -- the first byte is no line end
        (b :: (splitLine rest).1) :: nonBlankLines (splitLine rest).2
termination_by text.length

/-- Text within a line. -/
def Plain (line : Text) : Prop :=
  ∀ b ∈ line, b ≠ 0 ∧ b ≠ 10 ∧ b ≠ 13

theorem splitLine_line {line : Text} (h : Plain line) (rest : Text) :
    splitLine (line ++ 10 :: rest) = (line, 10 :: rest) := by
  induction line with
  | nil =>
      rw [List.nil_append, splitLine, if_pos (Or.inr (Or.inl rfl))]
  | cons b line ih =>
      obtain ⟨hzero, hfeed, hreturn⟩ := h b List.mem_cons_self
      rw [List.cons_append, splitLine, if_neg (by simp [hzero, hfeed, hreturn]),
        ih fun c hc => h c (List.mem_cons_of_mem _ hc)]

theorem splitLine_last {line : Text} (h : Plain line) : splitLine line = (line, []) := by
  induction line with
  | nil => rfl
  | cons b line ih =>
      obtain ⟨hzero, hfeed, hreturn⟩ := h b List.mem_cons_self
      rw [splitLine, if_neg (by simp [hzero, hfeed, hreturn]),
        ih fun c hc => h c (List.mem_cons_of_mem _ hc)]

/-- Within a line there is nothing to skip. -/
theorem skipLineEnds_plain {b : UInt8} (hfeed : b ≠ 10) (hreturn : b ≠ 13) (rest : Text) :
    skipLineEnds (b :: rest) = b :: rest := by
  rw [skipLineEnds]
  · rintro rest' ⟨⟩
    exact hfeed rfl
  · rintro rest' ⟨⟩
    exact hreturn rfl

theorem nonBlankLines_nil : nonBlankLines [] = [] := by
  rw [nonBlankLines]
  rfl

/-- An empty line is skipped. -/
theorem nonBlankLines_feed (rest : Text) : nonBlankLines (10 :: rest) = nonBlankLines rest := by
  rw [nonBlankLines, nonBlankLines]
  rfl

theorem nonBlankLines_cons {b : UInt8} (hzero : b ≠ 0) (hfeed : b ≠ 10) (hreturn : b ≠ 13)
    (rest : Text) :
    nonBlankLines (b :: rest) = (b :: (splitLine rest).1) :: nonBlankLines (splitLine rest).2 := by
  rw [nonBlankLines]
  split
  · next hskip =>
      rw [skipLineEnds_plain hfeed hreturn] at hskip
      cases hskip
  · next b' rest' hskip =>
      rw [skipLineEnds_plain hfeed hreturn] at hskip
      cases hskip
      rw [if_neg hzero]

/-- A line is read up to its line feed. -/
theorem nonBlankLines_line {line : Text} (h : Plain line) (hne : line ≠ []) (rest : Text) :
    nonBlankLines (line ++ 10 :: rest) = line :: nonBlankLines rest := by
  cases line with
  | nil => exact absurd rfl hne
  | cons b line =>
      obtain ⟨hzero, hfeed, hreturn⟩ := h b List.mem_cons_self
      rw [List.cons_append, nonBlankLines_cons hzero hfeed hreturn,
        splitLine_line fun c hc => h c (List.mem_cons_of_mem _ hc), nonBlankLines_feed]

/-- The last line needs no line feed. -/
theorem nonBlankLines_last {line : Text} (h : Plain line) (hne : line ≠ []) :
    nonBlankLines line = [line] := by
  cases line with
  | nil => exact absurd rfl hne
  | cons b line =>
      obtain ⟨hzero, hfeed, hreturn⟩ := h b List.mem_cons_self
      rw [nonBlankLines_cons hzero hfeed hreturn,
        splitLine_last fun c hc => h c (List.mem_cons_of_mem _ hc), nonBlankLines_nil]

/-! ## White space -/

/-- A blank, a tab, a line feed, a vertical tab, a form feed or a carriage return. -/
def isBlank (b : UInt8) : Bool :=
  b == 32 || (9 ≤ b && b ≤ 13)

/-- The text without white space at its ends. -/
def trim (text : Text) : Text :=
  (text.dropWhile isBlank).rdropWhile isBlank

theorem trim_replicate (n : Nat) : trim (List.replicate n 32) = [] := by
  have hblank : (List.replicate n (32 : UInt8)).dropWhile isBlank = [] :=
    List.dropWhile_eq_nil_iff.mpr fun b hb => by
      rw [List.eq_of_mem_replicate hb]
      rfl
  rw [trim, hblank]
  rfl

/-- Blanks in front of a text that has none at its ends. -/
theorem trim_of_padded {text : Text} (hfirst : ∀ b ∈ text.head?, isBlank b = false)
    (hlast : ∀ b ∈ text.getLast?, isBlank b = false) (n : Nat) :
    trim (List.replicate n 32 ++ text) = text := by
  have hfront : (List.replicate n 32 ++ text).dropWhile isBlank = text := by
    rw [List.dropWhile_append_of_pos fun b hb => by
      rw [List.eq_of_mem_replicate hb]
      rfl]
    cases text with
    | nil => rfl
    | cons b rest =>
        rw [List.dropWhile_cons_of_neg]
        rw [hfirst b rfl]
        exact Bool.false_ne_true
  rw [trim, hfront]
  cases hnil : text.getLast? with
  | none =>
      rw [List.getLast?_eq_none_iff.mp hnil]
      rfl
  | some b =>
      obtain ⟨front, rfl⟩ := List.getLast?_eq_some_iff.mp hnil
      rw [List.rdropWhile_concat_neg]
      rw [hlast b hnil]
      exact Bool.false_ne_true

end Lines
end Library
end AllvmTools
