import AllvmTools.Archive.Source
import AllvmTools.Archive.ZipArchive
import AllvmTools.Library.Commands

/-!
# Writing an archive

`zip_close` as a sequence of operations on the target file and the temporary
output: the ALLVM prefix, the entry loop with new and copied data, the central
directory, and the commit or rollback of the file source.  Any operation may
fail; cloning is not configured, so every archive is written from its start.
-/

namespace AllvmTools
namespace Archive

open Library Library.Files Library.LittleEndian Library.Crc32 Library.Commands
open Library.Commands.Command

/-! ## Operations on the files -/

/-- What the surroundings do to a close. -/
structure Env where
  /-- The operations, counted from zero, that fail. -/
  fails : Nat → Bool
  /-- What reached the temporary file when flushing it in `fclose` failed. -/
  left : Bytes

/-- The target, the temporary output, and the state of the file source. -/
structure World where
  file : Option Bytes
  temp : Option Bytes
  /-- The write position in the temporary output. -/
  pos : Nat
  /-- `write_state` is `ZIP_SOURCE_WRITE_OPEN`. -/
  writing : Bool
  /-- The operations so far. -/
  ops : Nat
deriving DecidableEq, Repr

/-- A close begins. -/
def World.start (file : Option Bytes) : World :=
  ⟨file, none, 0, false, 0⟩

/-- A part of a close; `none` is its error return. -/
abbrev CloseM := Command Env World

/-- One operation: it fails when the surroundings say so. -/
def op {α : Type} (act : World → Option α × World) : CloseM α :=
  fun env w =>
    if env.fails w.ops then
      (none, { w with ops := w.ops + 1 })
    else
      act { w with ops := w.ops + 1 }

/-- `zip_source_begin_write`: an empty temporary output. -/
def beginWrite : CloseM Unit :=
  op fun w => (some (), { w with temp := some [], pos := 0, writing := true })

/-- `_zip_write`. -/
def write (bytes : Bytes) : CloseM Unit :=
  op fun w =>
    (some (),
      { w with
        temp := w.temp.map fun content => writeAt content w.pos bytes
        pos := w.pos + bytes.length })

/-- `zip_source_tell_write`. -/
def tellWrite : CloseM Nat :=
  op fun w => (some w.pos, w)

/-- `zip_source_seek_write` from the start. -/
def seekWrite (offset : Nat) : CloseM Unit :=
  op fun w => (some (), { w with pos := offset })

/-- `zip_source_seek` and `_zip_read` in the old file. -/
def readOld (offset len : Nat) : CloseM Bytes :=
  op fun w =>
    let data := ((w.file.getD []).drop offset).take len
    if data.length = len then (some data, w) else (none, w)

/-- `fclose` of the temporary output: where it fails, what was flushed stays. -/
def closeOutput : CloseM Unit :=
  fun env w =>
    (some (),
      { w with
        temp := if env.fails w.ops then w.temp.map fun _ => env.left else w.temp
        ops := w.ops + 1 })

/-- The rename of the temporary output over the file. -/
def renameOutput : CloseM Unit :=
  op fun w => (some (), { w with file := w.temp, temp := none, writing := false })

/-- `ZIP_SOURCE_COMMIT_WRITE`: the rename does not depend on the `fclose` before it. -/
def commitWrite : CloseM Unit := do
  closeOutput
  renameOutput

/-- `zip_source_rollback_write`. -/
def rollbackWrite (w : World) : World :=
  { w with temp := none, writing := false }

/-- `zip_source_remove`: `remove` needs a file. -/
def sourceRemove : CloseM Unit :=
  op fun w => if w.file.isSome then (some (), { w with file := none }) else (none, w)

/-! ## Compression -/

/-- zlib as the archive uses it. -/
structure Codec where
  deflate : Bytes → Bytes
  /-- The deflated stream ends within the first block that is read from it. -/
  endsInFirstRead : Bytes → Bool
  inflate : Inflate

/-- `BUFSIZE`. -/
def bufSize : Nat := 8192

/-- What the sources of `add_data` deliver for uncompressed data and a requested
method, with the method they report at the end.  Under a default method, data
that fits one buffer is stored where deflating does not shrink it. -/
def Codec.encode (codec : Codec) (method : Method) (data : Bytes) : Option (Method × Bytes) :=
  match method.actual with
  | .store => some (.store, data)
  | .deflate =>
      if method.isDefault = true ∧ data.length ≤ bufSize ∧ codec.endsInFirstRead data = true ∧
          data.length ≤ (codec.deflate data).length then
        some (.store, data)
      else
        some (.deflate, codec.deflate data)
  | _ => none

/-- The size from which on a ZIP64 field is reserved before the compressed size
is known. -/
def maxSize : Method → Nat
  | .deflate => 4293656963
  | .store => uint32Max
  | _ => 0

/-- `zip_source_get_compression_flags` at level 9. -/
def compressionFlags : Method → Nat
  | .deflate => 1
  | _ => 0

/-- `_zip_dirent_set_version_needed`, for the methods written here. -/
def Dirent.setVersionNeeded (de : Dirent) (force : Bool) : Dirent :=
  { de with
    versionNeeded :=
      if force || de.needsZip64 false then 45
      else if de.compMethod = .deflate then 20
      else if de.filename.getLast? = some 47 then 20
      else 10 }

/-! ## One entry -/

/-- `_zip_dirent_write` with `ZIP_FL_LOCAL`: the entry with its flags corrected,
and whether it has a ZIP64 field. -/
def direntWriteLocal (de : Dirent) (force : Bool) : CloseM (Dirent × Bool) := do
  let de := de.withWriteFlags
  write (de.localFixed force)
  write de.filename
  write (de.localExtra force)
  return (de, de.localIsZip64 force)

/-- `_zip_dirent_write` with `ZIP_FL_CENTRAL`: whether the record has a ZIP64 field. -/
def direntWriteCentral (de : Dirent) : CloseM Bool := do
  let de := de.withWriteFlags
  write de.centralFixed
  write de.filename
  write de.centralExtra
  return de.needsZip64 true

/-- The loop of `copy_source`. -/
def copySource (data : Bytes) : CloseM Unit :=
  if data = [] then
    pure ()
  else do
    write (data.take bufSize)
    copySource (data.drop bufSize)
termination_by data.length
decreasing_by
  have hpos : 0 < data.length := List.length_pos_iff.mpr (by assumption)
  simp only [List.length_drop, bufSize]
  omega

/-- The loop of `copy_data`, from the old file. -/
def copyData (offset len : Nat) : CloseM Unit :=
  if len = 0 then
    pure ()
  else do
    let data ← readOld offset (min len bufSize)
    write data
    copyData (offset + min len bufSize) (len - min len bufSize)
termination_by len
decreasing_by
  simp only [bufSize]
  omega

/-- Whether `add_data` passes `ZIP_FL_FORCE_ZIP64` for a size and a method. -/
def forceZip64 (method : Method) (size : Nat) : Bool :=
  decide (method ≠ .store) && decide (maxSize method.actual < size)

/-- The entry of the preliminary header.  Where the data will be compressed, the
compressed size of the entry that is replaced stays in it. -/
def Dirent.preliminary (de : Dirent) (size : Nat) : Dirent :=
  { de with
    uncompSize := size
    compSize := if de.compMethod = .store then size else de.compSize
    bitflags := setBit de.bitflags gpbfDataDescriptor false }

/-- The entry after its data was written. -/
def Dirent.finished (de : Dirent) (source : Buffer) (method : Method) (compSize : Nat) : Dirent :=
  { de with
    dosTime := source.dosTime
    dosDate := source.dosDate
    compMethod := method
    crc := crc32 0 source.bytes
    uncompSize := source.bytes.length
    compSize := compSize
    bitflags := setBit (setBit de.bitflags 2 false) 4 false ||| (compressionFlags method <<< 1) }

/-- `add_data` up to its comparison of the two headers: a preliminary header, the
data, and the header again over the preliminary one; with whether each of them
has a ZIP64 field and the end of the data. -/
def writeData (codec : Codec) (source : Buffer) (de : Dirent) :
    CloseM (Dirent × Bool × Bool × Nat) := do
  let force := forceZip64 de.compMethod source.bytes.length
  let offstart ← tellWrite
  let (de, isZip64) ← direntWriteLocal (de.preliminary source.bytes.length) force
  if de.encrypted then
    fail
  else
    match codec.encode de.compMethod source.bytes with
    | none => fail
    | some (method, data) =>
        let offdata ← tellWrite
        copySource data
        let offend ← tellWrite
        seekWrite offstart
        let de := de.finished source method (offend - offdata)
        let (de, isZip64') ← direntWriteLocal (de.setVersionNeeded force) force
        return (de, isZip64, isZip64', offend)

/-- `add_data` for a buffer source. -/
def addData (codec : Codec) (source : Buffer) (de : Dirent) : CloseM Dirent := do
  let (de, isZip64, isZip64', offend) ← writeData codec source de
  if isZip64 ≠ isZip64' then
    fail
  else
    seekWrite offend
    return de

/-- `_zip_read_local_ef`, for entries without foreign extra fields. -/
def readLocalEf : Option Dirent → CloseM Unit
  | none => pure ()
  | some orig => do
      let lengths ← readOld (orig.offset + 26) 4
      if ofLE (lengths.drop 2) = 0 then
        pure ()
      else
        let _ ← readOld (orig.offset + lentrySize + ofLE (lengths.take 2)) (ofLE (lengths.drop 2))
        pure ()

/-- `_zip_file_get_offset` during a close. -/
def fileGetOffsetM (orig : Dirent) : CloseM Nat := do
  let lengths ← readOld (orig.offset + 26) 4
  let offset := orig.offset + (lentrySize + ofLE (lengths.take 2) + ofLE (lengths.drop 2))
  if int64Max < offset then fail else return offset

/-- The entry loop's body for one entry: new data, or a copy of the old data.  An
entry that is neither in the file nor has data cannot arise. -/
def writeEntry (codec : Codec) (e : ZipEntry) : CloseM Dirent := do
  let changes := e.changes.getD (.clone e.orig)
  readLocalEf e.orig
  let off ← tellWrite
  let de := { changes.dirent with offset := off }
  match e.source, e.orig with
  | some source, _ => addData codec source de
  | none, none => fail
  | none, some orig => do
      let de := { de with bitflags := setBit de.bitflags gpbfDataDescriptor false }
      let (de, _) ← direntWriteLocal de false
      let offset ← fileGetOffsetM orig
      copyData offset de.compSize
      return de

/-! ## The whole archive -/

/-- The entry loop. -/
def writeEntries (codec : Codec) : List ZipEntry → CloseM (List Dirent)
  | [] => pure []
  | e :: rest => do
      let de ← writeEntry codec e
      let des ← writeEntries codec rest
      return de :: des

/-- The records of `_zip_cdir_write`: whether one of them has a ZIP64 field. -/
def writeRecords : List Dirent → CloseM Bool
  | [] => pure false
  | de :: rest => do
      let zip64 ← direntWriteCentral de
      let zip64' ← writeRecords rest
      return zip64 || zip64'

/-- `write_cdir`. -/
def writeCdir (des : List Dirent) : CloseM Unit := do
  let offset ← tellWrite
  let zip64 ← writeRecords des
  let off ← tellWrite
  write (cdirEnd zip64 des.length (off - offset) offset)

/-- The part of `zip_close` whose errors lead to the rollback: the entry loop,
the directory, the commit. -/
def writeAll (codec : Codec) (survivors : List ZipEntry) : CloseM (List Dirent) := do
  let des ← writeEntries codec survivors
  writeCdir des
  commitWrite
  return des

/-- The entries that are kept. -/
def Zip.survivors (za : Zip) : List ZipEntry :=
  za.entries.filter fun e => !e.deleted

/-- `_zip_changed`. -/
def Zip.changed (za : Zip) : Bool :=
  za.entries.any ZipEntry.hasChanges

/-- `zip_close`: its success with the directory it wrote, if any, and the files
afterwards. -/
def zipClose (codec : Codec) (za : Zip) (env : Env) (w : World) :
    Option (Option (List Dirent)) × World :=
  if za.survivors = [] then
    if za.truncate || za.changed then
      match sourceRemove env w with
      | (none, w) => (none, w)
      | (some (), w) => (some none, w)
    else
      (some none, w)
  else if za.changed = false then
    (some none, w)
  else
    match beginWrite env w with
    | (none, w) => (none, w)
    | (some (), w) =>
        match (za.prefixdata.elim (pure ()) write : CloseM Unit) env w with
        -- this return skips the rollback below
        | (none, w) => (none, w)
        | (some (), w) =>
            match writeAll codec za.survivors env w with
            | (none, w) => (none, rollbackWrite w)
            | (some des, w) => (some (some des), w)

end Archive
end AllvmTools
