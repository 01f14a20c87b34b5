import AllvmTools.Library.Text

/-!
# Allexes as their readers see them

An opened allexe is a list of modules, each with the entry name and the CRC the
archive records for it.  `Allexe::open` accepts a non-empty archive only if its
first entry is the main module; the field `mainFirst` keeps that fact.
-/

namespace AllvmTools

open Library

/-- `ALLEXE_MAIN`. -/
def allexeMain : Text := ascii "main.bc"

/-- One module of an allexe; `β` is what its bitcode holds. -/
structure Entry (β : Type) where
  name : Text
  crc : UInt32
  contents : β

/-- An allexe `Allexe::open` has accepted. -/
structure Allexe (β : Type) where
  entries : List (Entry β)
  mainFirst : ∀ main ∈ entries.head?, main.name = allexeMain

namespace Allexe

variable {β : Type}

/-- `Allexe::getNumModules`. -/
def getNumModules (allexe : Allexe β) : Nat :=
  allexe.entries.length

/-- The only module of an allexe whose module count is one. -/
theorem exists_single {allexe : Allexe β} (h : allexe.getNumModules = 1) :
    ∃ main, allexe.entries = [main] ∧ main.name = allexeMain := by
  obtain ⟨main, hmain⟩ := List.length_eq_one_iff.mp h
  exact ⟨main, hmain, allexe.mainFirst main (by simp [hmain])⟩

end Allexe
end AllvmTools
