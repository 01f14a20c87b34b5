import Mathlib.Algebra.Order.Ring.GeomSum
import Mathlib.Data.FinEnum
import Mathlib.Data.Fintype.BigOperators

/-!
# No code shortens everything

An injective map on strings cannot shorten all strings of a length: there are
fewer shorter strings.
-/

namespace AllvmTools
namespace Library
namespace Incompressible

/-- The strings shorter than `n` are fewer than those of length `n`. -/
theorem card_shorter_lt {α : Type} [Fintype α] (halpha : 2 ≤ Fintype.card α) (n : Nat) :
    Fintype.card (Σ k : Fin n, List.Vector α k) < Fintype.card (List.Vector α n) := by
  rw [Fintype.card_sigma, card_vector]
  calc
    ∑ k : Fin n, Fintype.card (List.Vector α k) = ∑ k : Fin n, Fintype.card α ^ (k : Nat) :=
      Finset.sum_congr rfl fun k _ => card_vector _
    _ = ∑ k ∈ Finset.range n, Fintype.card α ^ k :=
      Fin.sum_univ_eq_sum_range (fun k => Fintype.card α ^ k) n
    _ < Fintype.card α ^ n := Nat.geomSum_lt halpha fun k hk => Finset.mem_range.mp hk

/-- Some string of every length is not shortened. -/
theorem exists_not_shortened {α : Type} [Fintype α] (halpha : 2 ≤ Fintype.card α)
    {code : List α → List α} (hcode : Function.Injective code) (n : Nat) :
    ∃ s : List α, s.length = n ∧ n ≤ (code s).length := by
  by_contra hnone
  push Not at hnone
  let shorten : List.Vector α n → Σ k : Fin n, List.Vector α k := fun v =>
    ⟨⟨(code v.toList).length, hnone v.toList v.toList_length⟩, ⟨code v.toList, rfl⟩⟩
  have hinjective : Function.Injective shorten := by
    intro v v' h
    have hlist : code v.toList = code v'.toList :=
      congrArg (fun x : Σ k : Fin n, List.Vector α k => x.2.toList) h
    exact List.Vector.toList_injective (hcode hlist)
  have hle := Fintype.card_le_of_injective shorten hinjective
  have hlt := card_shorter_lt halpha n
  omega

/-- Some byte string of every length is not shortened. -/
theorem exists_bytes_not_shortened {code : List UInt8 → List UInt8}
    (hcode : Function.Injective code) (n : Nat) :
    ∃ s : List UInt8, s.length = n ∧ n ≤ (code s).length := by
  apply exists_not_shortened _ hcode n
  rw [← FinEnum.card_eq_fintypeCard, FinEnum.card_UInt8]
  decide

end Incompressible
end Library
end AllvmTools
