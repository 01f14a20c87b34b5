import Mathlib.Data.UInt
import Mathlib.Tactic.Common

/-!
# Vectors of words that end at a zero

Reading words up to a null, and pairs of words up to a zero type, from the front of
a vector; `none` is a read behind its end.

* `untilNull_append` — words without a null, in front of one.
* `pairsUntilZero_flatten` — pairs without a zero type, in front of a zero.
-/

namespace AllvmTools
namespace Library
namespace NullTerminated

/-- The words before the first null, and what follows it. -/
def untilNull : List UInt64 → Option (List UInt64 × List UInt64)
  | [] => none
  | w :: rest =>
      if w = 0 then
        some ([], rest)
      else
        match untilNull rest with
        | none => none
        | some (words, rest) => some (w :: words, rest)

/-- The pairs before the first zero type; the zero itself has no value. -/
def pairsUntilZero : List UInt64 → Option (List (UInt64 × UInt64))
  | [] => none
  | [w] => if w = 0 then some [] else none
  | t :: v :: rest =>
      if t = 0 then
        some []
      else
        match pairsUntilZero rest with
        | none => none
        | some pairs => some ((t, v) :: pairs)

/-- Pairs as words, one after the other. -/
def flatten (pairs : List (UInt64 × UInt64)) : List UInt64 :=
  pairs.flatMap fun pair => [pair.1, pair.2]

theorem untilNull_append {words : List UInt64} (hwords : ∀ w ∈ words, w ≠ 0)
    (rest : List UInt64) : untilNull (words ++ 0 :: rest) = some (words, rest) := by
  induction words with
  | nil => rfl
  | cons w words ih =>
      have htail := ih fun w' hw' => hwords w' (List.mem_cons_of_mem _ hw')
      rw [List.cons_append, untilNull, if_neg (hwords w List.mem_cons_self), htail]

theorem pairsUntilZero_zero (rest : List UInt64) : pairsUntilZero (0 :: rest) = some [] := by
  cases rest with
  | nil => rfl
  | cons v rest => rfl

theorem pairsUntilZero_flatten {pairs : List (UInt64 × UInt64)}
    (hpairs : ∀ pair ∈ pairs, pair.1 ≠ 0) (rest : List UInt64) :
    pairsUntilZero (flatten pairs ++ 0 :: rest) = some pairs := by
  induction pairs with
  | nil => exact pairsUntilZero_zero rest
  | cons pair pairs ih =>
      have htail := ih fun p hp => hpairs p (List.mem_cons_of_mem _ hp)
      show pairsUntilZero (pair.1 :: pair.2 :: (flatten pairs ++ 0 :: rest)) = _
      rw [pairsUntilZero, if_neg (hpairs pair List.mem_cons_self), htail]

theorem length_flatten (pairs : List (UInt64 × UInt64)) :
    (flatten pairs).length = 2 * pairs.length := by
  induction pairs with
  | nil => rfl
  | cons pair pairs ih =>
      show (flatten pairs).length + 1 + 1 = _
      rw [ih, List.length_cons]
      omega

end NullTerminated
end Library
end AllvmTools
