import Mathlib.Logic.Function.Basic
import AllvmTools.Library.Paths

/-!
# A store of files

Only regular files and their bytes; a write replaces the whole content.  The
second part is the content of one file under writes at an offset, and what such
a file keeps of the bytes a writer has got through to it.
-/

namespace AllvmTools
namespace Library
namespace Files

open Text Paths

abbrev Bytes := List UInt8

/-- What every file holds; `none` where there is no file. -/
abbrev FileSystem := FilePath → Option Bytes

/-- `file` now holds `bytes`. -/
def FileSystem.write (fs : FileSystem) (file : FilePath) (bytes : Bytes) : FileSystem :=
  Function.update fs file (some bytes)

/-- There is no `file` any more. -/
def FileSystem.remove (fs : FileSystem) (file : FilePath) : FileSystem :=
  Function.update fs file none

@[simp] theorem remove_self (fs : FileSystem) (file : FilePath) : fs.remove file file = none :=
  Function.update_self ..

theorem remove_of_ne (fs : FileSystem) {file other : FilePath} (h : other ≠ file) :
    fs.remove file other = fs other :=
  Function.update_of_ne h ..

@[simp] theorem write_self (fs : FileSystem) (file : FilePath) (bytes : Bytes) :
    fs.write file bytes file = some bytes :=
  Function.update_self ..

theorem write_of_ne (fs : FileSystem) {file other : FilePath} (bytes : Bytes)
    (h : other ≠ file) : fs.write file bytes other = fs other :=
  Function.update_of_ne h ..

/-- What a file holds after a write: the write's bytes, or what it held. -/
theorem write_eq_some_iff (fs : FileSystem) (file other : FilePath) (bytes found : Bytes) :
    fs.write file bytes other = some found ↔
      (other = file ∧ bytes = found) ∨ (other ≠ file ∧ fs other = some found) := by
  by_cases h : other = file
  · subst h
    simp
  · simp [write_of_ne fs bytes h, h]

/-- No file lies below the directory. -/
def Fresh (dir : Text) (fs : FileSystem) : Prop :=
  ∀ file, LiesUnder dir file → fs (resolve file) = none

/-! ## Writes at an offset -/

/-- `chunk` written at `off`; a gap before it reads as zeros. -/
def writeAt (content : Bytes) (off : Nat) (chunk : Bytes) : Bytes :=
  content.take off ++ (List.replicate (off - content.length) 0 ++
    (chunk ++ content.drop (off + chunk.length)))

theorem length_writeAt (content : Bytes) (off : Nat) (chunk : Bytes) :
    (writeAt content off chunk).length = max content.length (off + chunk.length) := by
  simp only [writeAt, List.length_append, List.length_take, List.length_replicate,
    List.length_drop]
  omega

theorem getElem?_writeAt_before {content : Bytes} {off i : Nat} (chunk : Bytes)
    (hi : i < off) (hlen : i < content.length) :
    (writeAt content off chunk)[i]? = content[i]? := by
  rw [writeAt, List.getElem?_append_left (by rw [List.length_take]; omega),
    List.getElem?_take_of_lt hi]

theorem getElem?_writeAt_chunk (content : Bytes) (off : Nat) {chunk : Bytes} {i : Nat}
    (hi : i < chunk.length) : (writeAt content off chunk)[off + i]? = chunk[i]? := by
  have hfront : (content.take off).length + (off - content.length) = off := by
    rw [List.length_take]
    omega
  rw [writeAt, List.getElem?_append_right (by omega), List.getElem?_append_right
    (by rw [List.length_replicate]; omega), List.length_replicate,
    show off + i - (content.take off).length - (off - content.length) = i by omega,
    List.getElem?_append_left hi]

theorem getElem?_writeAt_after (content : Bytes) {off i : Nat} {chunk : Bytes}
    (hi : off + chunk.length ≤ i) : (writeAt content off chunk)[i]? = content[i]? := by
  have hfront : (content.take off).length + (off - content.length) = off := by
    rw [List.length_take]
    omega
  rw [writeAt, List.getElem?_append_right (by omega), List.getElem?_append_right
    (by rw [List.length_replicate]; omega), List.length_replicate,
    List.getElem?_append_right (by omega), List.getElem?_drop]
  congr 1
  omega

/-- A write at the end appends. -/
theorem writeAt_length (content chunk : Bytes) :
    writeAt content content.length chunk = content ++ chunk := by
  simp [writeAt]

/-- `content` carries the first `k` bytes of `obj` and does not outgrow it. -/
structure Carries (obj : Bytes) (k : Nat) (content : Bytes) : Prop where
  fits : content.length ≤ obj.length
  agrees : ∀ i < k, content[i]? = obj[i]?

theorem carries_nil (obj : Bytes) : Carries obj 0 [] where
  fits := Nat.zero_le _
  agrees := fun _ hi => absurd hi (Nat.not_lt_zero _)

/-- What carries all bytes is the object. -/
theorem Carries.eq {obj content : Bytes} (h : Carries obj obj.length content) :
    content = obj := by
  refine List.ext_getElem? fun i => ?_
  by_cases hi : i < obj.length
  · exact h.agrees i hi
  · have hfits := h.fits
    rw [List.getElem?_eq_none (by omega), List.getElem?_eq_none (by omega)]

/-- A write inside the object that agrees with the bytes already carried. -/
theorem Carries.writeAt {obj content chunk : Bytes} {k off : Nat} (h : Carries obj k content)
    (hk : k ≤ obj.length) (hfits : off + chunk.length ≤ obj.length)
    (hagrees : ∀ i < chunk.length, off + i < k → chunk[i]? = obj[off + i]?) :
    Carries obj k (writeAt content off chunk) := by
  refine ⟨?_, fun i hi => ?_⟩
  · rw [length_writeAt]
    exact max_le h.fits hfits
  · have hlen : i < content.length := by
      by_contra hge
      have hnone := h.agrees i hi
      rw [List.getElem?_eq_none (by omega), List.getElem?_eq_getElem (by omega)] at hnone
      cases hnone
    by_cases hbefore : i < off
    · rw [getElem?_writeAt_before chunk hbefore hlen, h.agrees i hi]
    · by_cases hafter : off + chunk.length ≤ i
      · rw [getElem?_writeAt_after content hafter, h.agrees i hi]
      · obtain ⟨j, rfl⟩ : ∃ j, i = off + j := ⟨i - off, by omega⟩
        rw [getElem?_writeAt_chunk content off (by omega)]
        exact hagrees j (by omega) hi

/-- The object's own next chunk extends what is carried. -/
theorem Carries.writeNext {obj content : Bytes} {k n : Nat} (h : Carries obj k content)
    (hn : k + n ≤ obj.length) :
    Carries obj (k + n) (Files.writeAt content k ((obj.drop k).take n)) := by
  have hchunk : ((obj.drop k).take n).length = n := by
    rw [List.length_take, List.length_drop]
    omega
  have hkeep : Carries obj k (Files.writeAt content k ((obj.drop k).take n)) :=
    h.writeAt (by omega) (by omega) fun i _ hlt => absurd hlt (by omega)
  refine ⟨hkeep.fits, fun i hi => ?_⟩
  by_cases hold : i < k
  · exact hkeep.agrees i hold
  · obtain ⟨j, rfl⟩ : ∃ j, i = k + j := ⟨i - k, by omega⟩
    rw [getElem?_writeAt_chunk content k (by omega), List.getElem?_take_of_lt (by omega),
      List.getElem?_drop]

end Files
end Library
end AllvmTools
