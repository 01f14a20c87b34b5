import Mathlib.Logic.Function.Iterate
import AllvmTools.Library.Text

/-!
# CRC-32

The reflected CRC-32 as a C interface offers it: continued from the checksum of
the bytes before, with zero for no bytes.

* `crc32_injective` — continued over the same bytes, different checksums stay
  different.
-/

namespace AllvmTools
namespace Library
namespace Crc32

/-- One bit of the reflected polynomial division. -/
def crcShift (c : UInt32) : UInt32 :=
  if c &&& 1 = 1 then (c >>> 1) ^^^ 0xEDB88320 else c >>> 1

/-- One byte enters the remainder. -/
def crcByte (c : UInt32) (b : UInt8) : UInt32 :=
  crcShift^[8] (c ^^^ b.toUInt32)

/-- `crc32(crc, buf, len)`. -/
def crc32 (crc : UInt32) (buf : List UInt8) : UInt32 :=
  ~~~(buf.foldl crcByte (~~~crc))

@[simp] theorem crc32_nil (crc : UInt32) : crc32 crc [] = crc := by
  simp [crc32]

example : crc32 0 (ascii "123456789") = 0xCBF43926 := by decide +kernel

/-! ## What a checksum keeps -/

theorem getLsbD_zero_eq_true_iff (c : UInt32) : c.toBitVec.getLsbD 0 = true ↔ c &&& 1 = 1 := by
  have hlow : (c &&& 1).toBitVec = BitVec.setWidth 32 (BitVec.ofBool (c.toBitVec.getLsbD 0)) := by
    rw [UInt32.toBitVec_and]
    exact BitVec.and_one_eq_setWidth_ofBool_getLsbD
  rw [← UInt32.toBitVec_inj, hlow]
  cases c.toBitVec.getLsbD 0 with
  | true => decide
  | false => decide

/-- A shift moves every bit down, and adds the polynomial where the low bit was set. -/
theorem getLsbD_crcShift (c : UInt32) (i : Nat) :
    (crcShift c).toBitVec.getLsbD i =
      ((c.toBitVec.getLsbD 0 && (0xEDB88320#32).getLsbD i) ^^ c.toBitVec.getLsbD (1 + i)) := by
  unfold crcShift
  by_cases hlow : c &&& 1 = 1
  · rw [if_pos hlow, (getLsbD_zero_eq_true_iff c).mpr hlow]
    simp [Bool.xor_comm]
  · rw [if_neg hlow, Bool.eq_false_iff.mpr (mt (getLsbD_zero_eq_true_iff c).mp hlow)]
    simp

/-- The highest bit of a shifted remainder is the bit that was shifted out, so
nothing is lost. -/
theorem crcShift_injective : Function.Injective crcShift := by
  intro c d h
  have hbits : ∀ i, (crcShift c).toBitVec.getLsbD i = (crcShift d).toBitVec.getLsbD i := by
    intro i
    rw [h]
  have htop : (0xEDB88320#32).getLsbD 31 = true := by decide
  have hlow : c.toBitVec.getLsbD 0 = d.toBitVec.getLsbD 0 := by
    have hbit := hbits 31
    rw [getLsbD_crcShift, getLsbD_crcShift, htop, BitVec.getLsbD_of_ge _ (1 + 31) (by decide),
      BitVec.getLsbD_of_ge _ (1 + 31) (by decide)] at hbit
    simpa using hbit
  apply UInt32.toBitVec_inj.mp
  apply BitVec.eq_of_getLsbD_eq
  intro i _
  cases i with
  | zero => exact hlow
  | succ i =>
      have hbit := hbits i
      rw [getLsbD_crcShift, getLsbD_crcShift, hlow] at hbit
      rw [Nat.add_comm i 1]
      exact Bool.xor_right_inj.mp hbit

/-- A byte can be taken out of the remainder again. -/
theorem crcByte_injective (b : UInt8) : Function.Injective fun c => crcByte c b := by
  intro c d h
  have hxor : c ^^^ b.toUInt32 = d ^^^ b.toUInt32 := crcShift_injective.iterate 8 h
  exact (UInt32.xor_left_inj _).mp hxor

/-- **Continuing a checksum over fixed bytes loses nothing.** -/
theorem crc32_injective (buf : List UInt8) : Function.Injective fun crc => crc32 crc buf := by
  have hfold : ∀ c d : UInt32, buf.foldl crcByte c = buf.foldl crcByte d → c = d := by
    induction buf with
    | nil => exact fun _ _ h => h
    | cons b buf ih => exact fun c d h => crcByte_injective b (ih _ _ h)
  intro c d h
  exact UInt32.not_inj.mp (hfold _ _ (UInt32.not_inj.mp h))

end Crc32
end Library
end AllvmTools
