import AllvmTools.Archive.ExtraField
import AllvmTools.Archive.ZipArchive
import AllvmTools.Library.Crc32

/-!
# Reading directory entries

`_zip_dirent_read`, which reads a central record or a local header from a buffer
or from the archive file: the fixed part, the name, the extra fields and the
comment, the Unicode name of another extra field, the 64-bit sizes, and the
parameters of WinZip encryption.

* `direntRead_eq_ok_iff` — an accepted record is laid out as a fixed part, a name,
  extra fields and a comment, and nothing is read beyond it.
-/

namespace AllvmTools
namespace Archive

open Library Library.Text Library.Files Library.LittleEndian Library.Crc32
open Library.Leaving.Program Library.Reader

/-! ## Times -/

/-- `struct tm`; the year counts from 1900, the month from 0. -/
structure Tm where
  year : Int
  mon : Int
  mday : Int
  hour : Int
  min : Int
  sec : Int
deriving DecidableEq, Repr

/-- The C library's conversions between times and calendars, in the time zone of
the process. -/
structure Calendar where
  mktime : Tm → Int
  localtime : Int → Tm

/-- `_zip_d2u_time`. -/
def Calendar.d2uTime (calendar : Calendar) (dtime ddate : Nat) : Int :=
  calendar.mktime
    { year := (ddate / 512 % 128 : Nat) + 1980 - 1900
      mon := (ddate / 32 % 16 : Nat) - 1
      mday := (ddate % 32 : Nat)
      hour := (dtime / 2048 % 32 : Nat)
      min := (dtime / 32 % 64 : Nat)
      sec := (dtime * 2 % 64 : Nat) }

/-- `_zip_u2d_time`: the time and the date. -/
def Calendar.u2dTime (calendar : Calendar) (intime : Int) : Nat × Nat :=
  let tm := calendar.localtime intime
  let year := if tm.year < 80 then 80 else tm.year
  (((tm.hour * 2048 + tm.min * 32 + tm.sec / 2) % 65536).toNat,
    (((year + 1900 - 1980) * 512 + (tm.mon + 1) * 32 + tm.mday) % 65536).toNat)

/-- A calendar that stands at the first day of the DOS times. -/
def firstDay : Calendar :=
  ⟨fun _ => 0, fun _ => ⟨80, 0, 1, 0, 0, 0⟩⟩

/-! ## Strings -/

/-- `struct zip_string`; the encoding is `none` until it is guessed. -/
structure ZipString where
  raw : Bytes
  encoding : Option Encoding
deriving DecidableEq, Repr

/-- `_zip_guess_encoding` with nothing expected. -/
def ZipString.guess (s : ZipString) : Encoding :=
  s.encoding.getD (guessEncoding s.raw)

/-- `_zip_guess_encoding` where UTF-8 is expected; `none` is its error. -/
def ZipString.expectUtf8 (s : ZipString) : Option ZipString :=
  match s.guess with
  | .ascii => some { s with encoding := some .ascii }
  | .utf8Guessed | .utf8Known => some { s with encoding := some .utf8Known }
  | .cp437 => none

/-- `_zip_string_crc32`. -/
def stringCrc32 (s : Option ZipString) : UInt32 :=
  match s with
  | none => 0
  | some s => crc32 0 s.raw

/-- `_zip_string_length`. -/
def stringLength (s : Option ZipString) : Nat :=
  match s with
  | none => 0
  | some s => s.raw.length

/-- `_zip_string_equal`, which compares the raw bytes. -/
def stringEqual (a b : Option ZipString) : Bool :=
  decide (a.map ZipString.raw = b.map ZipString.raw)

/-- NUL bytes in a name that is read become spaces. -/
def blankNul (bytes : Bytes) : Bytes :=
  bytes.map fun b => if b = 0 then 32 else b

/-! ## Entries as they are read -/

/-- The encryption methods that reading sets. -/
inductive EncryptionMethod where
  | none
  | tradPkware
  | unknown
  | aes128
  | aes192
  | aes256
deriving DecidableEq, Repr

/-- `struct zip_dirent` after reading. -/
structure ReadDirent where
  versionMadeby : Nat
  versionNeeded : Nat
  bitflags : Nat
  compMethod : Nat
  lastMod : Int
  crc : UInt32
  crcValid : Bool
  compSize : Nat
  uncompSize : Nat
  filename : Option ZipString
  comment : Option ZipString
  extraFields : List ExtraField
  localExtraFieldsRead : Bool
  diskNumber : Nat
  intAttrib : Nat
  extAttrib : Nat
  offset : Nat
  encryptionMethod : EncryptionMethod
deriving DecidableEq, Repr

/-- A 16-bit method code; the negative default codes are never read. -/
def Method.ofCode : Nat → Method
  | 0 => .store
  | 8 => .deflate
  | code => .other code

/-- The entry as the archive in memory has it.  The name's encoding is guessed
when the names are entered in the name table. -/
def ReadDirent.dirent (calendar : Calendar) (de : ReadDirent) : Dirent where
  filename := (de.filename.map ZipString.raw).getD []
  nameEncoding := (de.filename.map ZipString.guess).getD .ascii
  versionMadeby := de.versionMadeby
  versionNeeded := de.versionNeeded
  bitflags := de.bitflags
  compMethod := .ofCode de.compMethod
  encrypted := decide (de.encryptionMethod ≠ .none)
  dosTime := (calendar.u2dTime de.lastMod).1
  dosDate := (calendar.u2dTime de.lastMod).2
  crc := de.crc
  compSize := de.compSize
  uncompSize := de.uncompSize
  diskNumber := de.diskNumber
  intAttrib := de.intAttrib
  extAttrib := de.extAttrib
  offset := de.offset

/-- `CDENTRYSIZE`. -/
def cdEntrySize : Nat := 46

/-- The size of the fixed part. -/
def fixedSize (isLocal : Bool) : Nat :=
  if isLocal then lentrySize else cdEntrySize

/-- The numbers of the fixed part, in their order. -/
structure FixedFields where
  versionMadeby : Nat
  versionNeeded : Nat
  bitflags : Nat
  compMethod : Nat
  dostime : Nat
  dosdate : Nat
  crc : Nat
  compSize : Nat
  uncompSize : Nat
  filenameLen : Nat
  efLen : Nat
  commentLen : Nat
  diskNumber : Nat
  intAttrib : Nat
  extAttrib : Nat
  offset : Nat
deriving DecidableEq, Repr

/-- A number that only one kind of header has; the other has zero for it. -/
def numberIf (present : Bool) (width : Nat) : Reader ZipError Nat :=
  if present then number width else pure 0

/-- The magic bytes of a header. -/
def headerMagic (isLocal : Bool) : Bytes :=
  if isLocal then localMagic else centralMagic

/-- The fixed part of `_zip_dirent_read`. -/
def readFixed (isLocal : Bool) : Reader ZipError FixedFields := do
  let magic ← bytes 4
  ensure (decide (magic = some (headerMagic isLocal))) .nozip
  let versionMadeby ← numberIf (!isLocal) 2
  let versionNeeded ← number 2
  let bitflags ← number 2
  let compMethod ← number 2
  let dostime ← number 2
  let dosdate ← number 2
  let crc ← number 4
  let compSize ← number 4
  let uncompSize ← number 4
  let filenameLen ← number 2
  let efLen ← number 2
  let commentLen ← numberIf (!isLocal) 2
  let diskNumber ← numberIf (!isLocal) 2
  let intAttrib ← numberIf (!isLocal) 2
  let extAttrib ← numberIf (!isLocal) 4
  let offset ← numberIf (!isLocal) 4
  let ok ← isOk
  ensure ok .internal
  return ⟨versionMadeby, versionNeeded, bitflags, compMethod, dostime, dosdate, crc, compSize,
    uncompSize, filenameLen, efLen, commentLen, diskNumber, intAttrib, extAttrib, offset⟩

/-- The size of the part behind the fixed one. -/
def FixedFields.variableSize (f : FixedFields) : Nat :=
  f.filenameLen + f.efLen + f.commentLen

def gpbfStrongEncryption : Nat := 0x0040

/-- A bit of the flags. -/
def hasBit (flags bit : Nat) : Bool :=
  decide (flags &&& bit ≠ 0)

/-- The entry as far as the fixed part gives it. -/
def FixedFields.readDirent (calendar : Calendar) (f : FixedFields) : ReadDirent where
  versionMadeby := f.versionMadeby
  versionNeeded := f.versionNeeded
  bitflags := f.bitflags
  compMethod := f.compMethod
  lastMod := calendar.d2uTime f.dostime f.dosdate
  crc := UInt32.ofNat f.crc
  crcValid := true
  compSize := f.compSize
  uncompSize := f.uncompSize
  filename := none
  comment := none
  extraFields := []
  localExtraFieldsRead := false
  diskNumber := f.diskNumber
  intAttrib := f.intAttrib
  extAttrib := f.extAttrib
  offset := f.offset
  encryptionMethod :=
    if hasBit f.bitflags gpbfEncrypted then
      if hasBit f.bitflags gpbfStrongEncryption then .unknown else .tradPkware
    else
      .none

/-- `_zip_read_data` from a buffer. -/
def readData (length : Nat) : Reader ZipError Bytes := do
  let some bytes ← bytes length
    | leave .memory
  return bytes

/-- A string whose header says that it is UTF-8. -/
def checkUtf8 (bitflags : Nat) (s : ZipString) : Reader ZipError ZipString :=
  if hasBit bitflags gpbfEncodingUtf8 then
    match s.expectUtf8 with
    | none => leave .incons
    | some s => pure s
  else
    pure s

/-- A name or a comment, its bytes changed by `change`. -/
def readString (change : Bytes → Bytes) (bitflags length : Nat) :
    Reader ZipError (Option ZipString) :=
  if length = 0 then
    pure none
  else do
    let raw ← readData length
    let s ← checkUtf8 bitflags ⟨change raw, none⟩
    return some s

/-- The extra fields. -/
def readExtraFields (isLocal : Bool) (efLen : Nat) : Reader ZipError (List ExtraField) :=
  if efLen = 0 then
    pure []
  else do
    let ef ← readData efLen
    match efParse (.of isLocal) ef with
    | .error e => leave e
    | .ok efs => pure efs

/-- The part behind the fixed one. -/
def readVariable (isLocal : Bool) (f : FixedFields) :
    Reader ZipError (Option ZipString × List ExtraField × Option ZipString) := do
  let filename ← readString blankNul f.bitflags f.filenameLen
  let efs ← readExtraFields isLocal f.efLen
  let comment ← readString id f.bitflags f.commentLen
  return (filename, efs, comment)

/-- `_zip_dirent_process_ef_utf_8`: the Unicode text of an extra field replaces a
string whose checksum it carries. -/
def processEfUtf8 (efs : List ExtraField) (id : Nat) (str : Option ZipString) :
    Option ZipString :=
  match efGetById efs id 0 .both with
  | none => str
  | some ef =>
      if ef.length < 5 ∨ ef.head? ≠ some 1 then
        str
      else
        let (_, buffer) := (ByteCursor.new ef).getLE 1
        let (efCrc, buffer) := buffer.getLE 4
        if (stringCrc32 str).toNat = efCrc then
          match zipStringNew buffer.rest with
          | none => str
          | some (raw, encoding) => some ⟨raw, some encoding⟩
        else
          str

/-- The 64-bit values of `_zip_dirent_read`. -/
def ReadDirent.zip64 (isLocal : Bool) (de : ReadDirent) : Except ZipError ReadDirent :=
  if de.uncompSize = uint32Max ∨ de.compSize = uint32Max ∨ de.offset = uint32Max then
    match efGetById de.extraFields efZip64 0 (.of isLocal) with
    | none => .error .noent
    | some ef =>
        let b := ByteCursor.new ef
        let (uncompSize, b) :=
          if de.uncompSize = uint32Max then b.getLE 8
          -- a local header has both sizes
          else if isLocal then (de.uncompSize, b.skip 8)
          else (de.uncompSize, b)
        let (compSize, b) := if de.compSize = uint32Max then b.getLE 8 else (de.compSize, b)
        let (offset, b) :=
          if isLocal = false ∧ de.offset = uint32Max then b.getLE 8 else (de.offset, b)
        let (diskNumber, b) :=
          if isLocal = false ∧ de.diskNumber = 0xFFFF then b.getLE 4 else (de.diskNumber, b)
        if b.eof then
          .ok { de with
            uncompSize := uncompSize
            compSize := compSize
            offset := offset
            diskNumber := diskNumber }
        else
          .error .incons
  else
    .ok de

/-- `ZIP_CM_WINZIP_AES`. -/
def cmWinzipAes : Nat := 99

/-- The encryption method of a WinZip mode. -/
def aesMethod : Nat → Option EncryptionMethod
  | 1 => some .aes128
  | 2 => some .aes192
  | 3 => some .aes256
  | _ => none

/-- `_zip_dirent_process_winzip_aes`. -/
def ReadDirent.processWinzipAes (de : ReadDirent) : Except ZipError ReadDirent :=
  if de.compMethod ≠ cmWinzipAes then
    .ok de
  else
    match efGetById de.extraFields efWinzipAes 0 .both with
    | none => .error .incons
    | some ef =>
        if ef.length < 7 then
          .error .incons
        else
          let (version, b) := (ByteCursor.new ef).getLE 2
          let (vendor, b) := b.get 2
          let (mode, b) := b.getLE 1
          let (compMethod, _) := b.getLE 2
          if version ≠ 1 ∧ version ≠ 2 then
            .error .encrnotsupp
          else if vendor ≠ some (ascii "AE") then
            .error .encrnotsupp
          else
            match aesMethod mode with
            | none => .error .encrnotsupp
            | some method =>
                if ef.length ≠ 7 then
                  .error .incons
                else
                  .ok { de with
                    crcValid := !(decide (version = 2) && decide (de.uncompSize < 20))
                    encryptionMethod := method
                    compMethod := compMethod }

/-- The part of `_zip_dirent_read` behind the comment; `ok` says that every read
stayed inside the buffer. -/
def ReadDirent.finish (isLocal ok : Bool) (de : ReadDirent) : Except ZipError ReadDirent :=
  match de.zip64 isLocal with
  | .error e => .error e
  | .ok de =>
      if ok = false then
        .error .internal
      else if int64Max < de.offset then
        .error .seek
      else
        match de.processWinzipAes with
        | .error e => .error e
        | .ok de => .ok { de with extraFields := efRemoveInternal de.extraFields }

/-- The entry with what stands behind the fixed part. -/
def FixedFields.withVariable (calendar : Calendar) (isLocal : Bool) (f : FixedFields)
    (filename : Option ZipString) (efs : List ExtraField) (comment : Option ZipString) :
    ReadDirent :=
  { f.readDirent calendar with
    filename := processEfUtf8 efs efUtf8Name filename
    extraFields := efs
    comment := processEfUtf8 efs efUtf8Comment comment
    localExtraFieldsRead := isLocal && decide (f.efLen ≠ 0) }

/-- `_zip_dirent_read`, from what is left in a buffer or in the file from the
position on; with the size of the entry. -/
def direntRead (calendar : Calendar) (fromBuffer isLocal : Bool) (bytes : Bytes) :
    Except ZipError (ReadDirent × Nat) :=
  let size := fixedSize isLocal
  if bytes.length < size then
    .error (if fromBuffer then .nozip else .eof)
  else
    match readFixed isLocal (.new (bytes.take size)) with
    | (.error e, _) => .error e
    | (.ok f, _) =>
        if (bytes.drop size).length < f.variableSize then
          .error (if fromBuffer then .incons else .eof)
        else
          match readVariable isLocal f (.new ((bytes.drop size).take f.variableSize)) with
          | (.error e, _) => .error e
          | (.ok (filename, efs, comment), b) =>
              match (f.withVariable calendar isLocal filename efs comment).finish isLocal b.ok with
              | .error e => .error e
              | .ok de => .ok (de, size + f.variableSize)

/-! ## The layout of what is accepted -/

/-- A number that only one kind of header has, as bytes. -/
def leIf (present : Bool) (width n : Nat) : Bytes :=
  if present then le width n else []

/-- The numbers fit their fields, and those that a local header lacks are zero. -/
structure FixedFields.InRange (isLocal : Bool) (f : FixedFields) : Prop where
  versionMadeby : f.versionMadeby < if isLocal then 1 else 256 ^ 2
  versionNeeded : f.versionNeeded < 256 ^ 2
  bitflags : f.bitflags < 256 ^ 2
  compMethod : f.compMethod < 256 ^ 2
  dostime : f.dostime < 256 ^ 2
  dosdate : f.dosdate < 256 ^ 2
  crc : f.crc < 256 ^ 4
  compSize : f.compSize < 256 ^ 4
  uncompSize : f.uncompSize < 256 ^ 4
  filenameLen : f.filenameLen < 256 ^ 2
  efLen : f.efLen < 256 ^ 2
  commentLen : f.commentLen < if isLocal then 1 else 256 ^ 2
  diskNumber : f.diskNumber < if isLocal then 1 else 256 ^ 2
  intAttrib : f.intAttrib < if isLocal then 1 else 256 ^ 2
  extAttrib : f.extAttrib < if isLocal then 1 else 256 ^ 4
  offset : f.offset < if isLocal then 1 else 256 ^ 4

/-- The bytes of the fixed part. -/
def FixedFields.layout (isLocal : Bool) (f : FixedFields) : Bytes :=
  headerMagic isLocal ++ (leIf (!isLocal) 2 f.versionMadeby ++ (le 2 f.versionNeeded ++
    (le 2 f.bitflags ++ (le 2 f.compMethod ++ (le 2 f.dostime ++ (le 2 f.dosdate ++
    (le 4 f.crc ++ (le 4 f.compSize ++ (le 4 f.uncompSize ++ (le 2 f.filenameLen ++
    (le 2 f.efLen ++ (leIf (!isLocal) 2 f.commentLen ++ (leIf (!isLocal) 2 f.diskNumber ++
    (leIf (!isLocal) 2 f.intAttrib ++ (leIf (!isLocal) 4 f.extAttrib ++
    leIf (!isLocal) 4 f.offset)))))))))))))))

theorem length_leIf (present : Bool) (width n : Nat) :
    (leIf present width n).length = if present then width else 0 := by
  unfold leIf
  split <;> simp

theorem FixedFields.length_layout (isLocal : Bool) (f : FixedFields) :
    (f.layout isLocal).length = fixedSize isLocal := by
  cases isLocal <;> simp [layout, length_leIf, headerMagic, localMagic, centralMagic, fixedSize,
    lentrySize, cdEntrySize]

theorem reads_numberIf {isLocal : Bool} {width n : Nat}
    (h : n < if isLocal then 1 else 256 ^ width) :
    Reads (numberIf (!isLocal) width) (leIf (!isLocal) width n) n := by
  cases isLocal with
  | true =>
      have hzero : n = 0 := by simpa using h
      subst hzero
      exact reads_pure 0
  | false => exact reads_number h

theorem takes_numberIf (isLocal : Bool) (width : Nat) :
    Takes (numberIf (!isLocal) width) fun n field =>
      (n < if isLocal then 1 else 256 ^ width) ∧ field = leIf (!isLocal) width n := by
  cases isLocal with
  | true => exact (takes_pure 0).weaken fun n field h => by simp [h.1, h.2, leIf]
  | false => exact takes_number width

theorem length_headerMagic (isLocal : Bool) : (headerMagic isLocal).length = 4 := by
  cases isLocal <;> rfl

/-- A fixed part is read where it stands. -/
theorem reads_readFixed {isLocal : Bool} {f : FixedFields} (h : f.InRange isLocal) :
    Reads (readFixed isLocal) (f.layout isLocal) f := by
  unfold readFixed FixedFields.layout
  refine (reads_bytes _ (length_headerMagic isLocal)).bind
    ((reads_ensure (decide_eq_true rfl)).next ?_)
  refine (reads_numberIf h.versionMadeby).bind ((reads_number h.versionNeeded).bind
    ((reads_number h.bitflags).bind ((reads_number h.compMethod).bind
    ((reads_number h.dostime).bind ((reads_number h.dosdate).bind
    ((reads_number h.crc).bind ((reads_number h.compSize).bind
    ((reads_number h.uncompSize).bind ((reads_number h.filenameLen).bind
    ((reads_number h.efLen).bind ((reads_numberIf h.commentLen).bind
    ((reads_numberIf h.diskNumber).bind ((reads_numberIf h.intAttrib).bind
    ((reads_numberIf h.extAttrib).bind ?_))))))))))))))
  have hoffset := (reads_numberIf h.offset).bind (f := fun offset => do
      let ok ← isOk
      ensure ok .internal
      return (⟨f.versionMadeby, f.versionNeeded, f.bitflags, f.compMethod, f.dostime, f.dosdate,
        f.crc, f.compSize, f.uncompSize, f.filenameLen, f.efLen, f.commentLen, f.diskNumber,
        f.intAttrib, f.extAttrib, offset⟩ : FixedFields))
    (reads_isOk.next ((reads_ensure rfl).next (reads_pure f)))
  simpa using hoffset

/-- What is read as a fixed part is the layout of its numbers. -/
theorem takes_readFixed (isLocal : Bool) :
    Takes (readFixed isLocal) fun f field => f.InRange isLocal ∧ field = f.layout isLocal := by
  unfold readFixed
  refine (takes_bytes 4).bind fun magic => (takes_ensure _ _).bind fun _ =>
    (takes_numberIf isLocal 2).bind fun versionMadeby => (takes_number 2).bind fun versionNeeded =>
    (takes_number 2).bind fun bitflags => (takes_number 2).bind fun compMethod =>
    (takes_number 2).bind fun dostime => (takes_number 2).bind fun dosdate =>
    (takes_number 4).bind fun crc => (takes_number 4).bind fun compSize =>
    (takes_number 4).bind fun uncompSize => (takes_number 2).bind fun filenameLen =>
    (takes_number 2).bind fun efLen => (takes_numberIf isLocal 2).bind fun commentLen =>
    (takes_numberIf isLocal 2).bind fun diskNumber =>
    (takes_numberIf isLocal 2).bind fun intAttrib =>
    (takes_numberIf isLocal 4).bind fun extAttrib => (takes_numberIf isLocal 4).bind fun offset =>
    takes_isOk.bind fun ok => (takes_ensure _ _).bind fun _ => (takes_pure _).weaken ?_
  rintro f _ ⟨rfl, rfl⟩ _ ⟨-, rfl⟩ _ ⟨-, rfl⟩ _ ⟨hoffset, rfl⟩ _ ⟨hextAttrib, rfl⟩
    _ ⟨hintAttrib, rfl⟩ _ ⟨hdiskNumber, rfl⟩ _ ⟨hcommentLen, rfl⟩ _ ⟨hefLen, rfl⟩
    _ ⟨hfilenameLen, rfl⟩ _ ⟨huncompSize, rfl⟩ _ ⟨hcompSize, rfl⟩ _ ⟨hcrc, rfl⟩
    _ ⟨hdosdate, rfl⟩ _ ⟨hdostime, rfl⟩ _ ⟨hcompMethod, rfl⟩ _ ⟨hbitflags, rfl⟩
    _ ⟨hversionNeeded, rfl⟩ _ ⟨hversionMadeby, rfl⟩ _ ⟨hmagic, rfl⟩ field ⟨hfield, -⟩
  have hmagic' : some field = some (headerMagic isLocal) :=
    hfield.symm.trans (of_decide_eq_true hmagic)
  cases hmagic'
  refine ⟨⟨hversionMadeby, hversionNeeded, hbitflags, hcompMethod, hdostime, hdosdate, hcrc,
    hcompSize, huncompSize, hfilenameLen, hefLen, hcommentLen, hdiskNumber, hintAttrib,
    hextAttrib, hoffset⟩, ?_⟩
  simp [FixedFields.layout]

theorem readData_append (before field rest : Bytes) :
    readData field.length ⟨before, field ++ rest, true⟩ =
      (.ok field, ⟨before ++ field, rest, true⟩) := by
  unfold readData
  rw [bind_of_ok (reads_bytes field rfl before rest)]
  rfl

/-- A string of a header: none where it is empty; UTF-8 where the header says so. -/
def stringOf (bitflags : Nat) (raw : Bytes) : Except ZipError (Option ZipString) :=
  if raw = [] then
    .ok none
  else if hasBit bitflags gpbfEncodingUtf8 then
    match (ZipString.mk raw none).expectUtf8 with
    | none => .error .incons
    | some s => .ok (some s)
  else
    .ok (some ⟨raw, none⟩)

theorem readString_append (change : Bytes → Bytes) (hchange : ∀ raw, change raw = [] ↔ raw = [])
    (bitflags : Nat) (before raw rest : Bytes) :
    readString change bitflags raw.length ⟨before, raw ++ rest, true⟩ =
      (stringOf bitflags (change raw), ⟨before ++ raw, rest, true⟩) := by
  unfold readString stringOf
  by_cases hraw : raw = []
  · simp [hraw, (hchange []).mpr rfl, pure, Leaving.Program.pure]
  · rw [if_neg (by simpa using hraw), if_neg (mt (hchange raw).mp hraw),
      bind_of_ok (readData_append before raw rest)]
    unfold checkUtf8
    split
    · cases (ZipString.mk (change raw) none).expectUtf8 with
      | none => rfl
      | some s => rfl
    · rfl

theorem readExtraFields_append (isLocal : Bool) (before extra rest : Bytes) :
    readExtraFields isLocal extra.length ⟨before, extra ++ rest, true⟩ =
      (efParse (.of isLocal) extra, ⟨before ++ extra, rest, true⟩) := by
  unfold readExtraFields
  by_cases hextra : extra = []
  · have hnil : efParse (.of isLocal) [] = .ok [] :=
      (efParse_eq_ok_iff _ _ _).mpr
        ⟨fun ef hef => (by cases hef), [], by simp [efBytes], by simp [IsPadding]⟩
    simp [hextra, hnil, pure, Leaving.Program.pure]
  · rw [if_neg (by simpa using hextra), bind_of_ok (readData_append before extra rest)]
    cases efParse (.of isLocal) extra with
    | error e => rfl
    | ok efs => rfl

theorem endsOk_readFixed (isLocal : Bool) : EndsOk (readFixed isLocal) := by
  unfold readFixed
  iterate 18 refine EndsOk.bind fun _ => ?_
  exact endsOk_check _ _

/-! ## Whole records -/

/-- The parts of a record: the fixed one, the name, the extra fields, and the comment. -/
structure RawRecord where
  fields : FixedFields
  name : Bytes
  extra : Bytes
  comment : Bytes
deriving DecidableEq, Repr

namespace RawRecord

/-- The bytes of a record. -/
def bytes (isLocal : Bool) (r : RawRecord) : Bytes :=
  r.fields.layout isLocal ++ (r.name ++ (r.extra ++ r.comment))

/-- The numbers fit their fields, and the lengths are those of the parts. -/
structure Valid (isLocal : Bool) (r : RawRecord) : Prop where
  inRange : r.fields.InRange isLocal
  name : r.fields.filenameLen = r.name.length
  extra : r.fields.efLen = r.extra.length
  comment : r.fields.commentLen = r.comment.length

/-- The name, the extra fields, and the comment, as they are read. -/
def parts (isLocal : Bool) (r : RawRecord) :
    Except ZipError (Option ZipString × List ExtraField × Option ZipString) := do
  let filename ← stringOf r.fields.bitflags (blankNul r.name)
  let efs ← efParse (.of isLocal) r.extra
  let comment ← stringOf r.fields.bitflags r.comment
  return (filename, efs, comment)

/-- The entry that a record is read as. -/
def read (calendar : Calendar) (isLocal : Bool) (r : RawRecord) : Except ZipError ReadDirent := do
  let (filename, efs, comment) ← r.parts isLocal
  (r.fields.withVariable calendar isLocal filename efs comment).finish isLocal true

theorem length_bytes {isLocal : Bool} {r : RawRecord} (h : r.Valid isLocal) :
    (r.bytes isLocal).length = fixedSize isLocal + r.fields.variableSize := by
  simp only [bytes, List.length_append, FixedFields.length_layout, FixedFields.variableSize,
    h.name, h.extra, h.comment]
  omega

theorem readVariable_eq {isLocal : Bool} {r : RawRecord} (h : r.Valid isLocal) :
    ∃ b : ByteCursor, b.ok = true ∧
      readVariable isLocal r.fields (.new (r.name ++ (r.extra ++ r.comment))) =
        (r.parts isLocal, b) := by
  unfold readVariable parts ByteCursor.new
  rw [h.name, h.extra, h.comment]
  have hname := readString_append blankNul (by simp [blankNul])
    r.fields.bitflags [] r.name (r.extra ++ r.comment)
  have hextra := readExtraFields_append isLocal ([] ++ r.name) r.extra r.comment
  have hcomment := readString_append id (fun _ => Iff.rfl)
    r.fields.bitflags ([] ++ r.name ++ r.extra) r.comment []
  rw [List.append_nil] at hcomment
  cases hfilename : stringOf r.fields.bitflags (blankNul r.name) with
  | error e =>
      rw [hfilename] at hname
      exact ⟨_, rfl, bind_of_error hname⟩
  | ok filename =>
      rw [hfilename] at hname
      rw [bind_of_ok hname]
      cases hefs : efParse (.of isLocal) r.extra with
      | error e =>
          rw [hefs] at hextra
          exact ⟨_, rfl, bind_of_error hextra⟩
      | ok efs =>
          rw [hefs] at hextra
          rw [bind_of_ok hextra]
          rw [id] at hcomment
          cases hstring : stringOf r.fields.bitflags r.comment with
          | error e =>
              rw [hstring] at hcomment
              exact ⟨_, rfl, bind_of_error hcomment⟩
          | ok comment =>
              rw [hstring] at hcomment
              exact ⟨_, rfl, bind_of_ok hcomment⟩

end RawRecord

/-- A record that stands in front of anything is read as its parts say. -/
theorem direntRead_bytes (calendar : Calendar) (fromBuffer : Bool) {isLocal : Bool}
    {r : RawRecord} (h : r.Valid isLocal) (rest : Bytes) :
    direntRead calendar fromBuffer isLocal (r.bytes isLocal ++ rest) =
      (r.read calendar isLocal).map fun de => (de, (r.bytes isLocal).length) := by
  have hlayout := FixedFields.length_layout isLocal r.fields
  have hvariable : (r.name ++ (r.extra ++ r.comment)).length = r.fields.variableSize := by
    simp only [List.length_append, FixedFields.variableSize, h.name, h.extra, h.comment]
    omega
  have hlength := RawRecord.length_bytes h
  have hfixed := reads_readFixed h.inRange [] []
  have htake : (r.bytes isLocal ++ rest).take (fixedSize isLocal) = r.fields.layout isLocal := by
    rw [RawRecord.bytes, List.append_assoc, ← hlayout, List.take_left]
  have hdrop : (r.bytes isLocal ++ rest).drop (fixedSize isLocal) =
      r.name ++ (r.extra ++ r.comment) ++ rest := by
    rw [RawRecord.bytes, List.append_assoc, ← hlayout, List.drop_left]
  obtain ⟨b, hok, hparts⟩ := RawRecord.readVariable_eq h
  unfold direntRead
  dsimp only
  rw [if_neg (by rw [List.length_append, hlength]; omega), htake, ByteCursor.new]
  rw [List.append_nil] at hfixed
  rw [hfixed]
  dsimp only
  rw [hdrop, if_neg (by rw [List.length_append, hvariable]; omega), ← hvariable, List.take_left,
    hparts]
  unfold RawRecord.read
  cases r.parts isLocal with
  | error e => rfl
  | ok parts =>
      dsimp only
      rw [hok, hvariable, ← hlength]
      cases hfinish : (r.fields.withVariable calendar isLocal parts.1 parts.2.1
          parts.2.2).finish isLocal true with
      | error e => simp [bind, Except.bind, hfinish, Except.map]
      | ok de => simp [bind, Except.bind, hfinish, Except.map]

/-- What is read is a record. -/
theorem exists_record_of_direntRead {calendar : Calendar} {fromBuffer isLocal : Bool}
    {bytes : Bytes} {de : ReadDirent} {n : Nat}
    (h : direntRead calendar fromBuffer isLocal bytes = .ok (de, n)) :
    ∃ r : RawRecord, r.Valid isLocal ∧ ∃ rest, bytes = r.bytes isLocal ++ rest := by
  unfold direntRead at h
  dsimp only at h
  split at h
  · cases h
  next hsize =>
  split at h
  · cases h
  next f b hfixed =>
  split at h
  · cases h
  next hvariable =>
  have hok := endsOk_readFixed isLocal _ _ _ hfixed
  obtain ⟨-, field, ⟨hinRange, rfl⟩, htake, -⟩ := takes_readFixed isLocal _ _ _ hfixed hok
  have hlayout := FixedFields.length_layout isLocal f
  have hnil : b.rest = [] := by
    have hlength := congrArg List.length htake
    rw [List.length_append, hlayout, ByteCursor.new, List.length_take_of_le (by omega)] at hlength
    exact List.length_eq_zero_iff.mp (by omega)
  have hfields : bytes.take (fixedSize isLocal) = f.layout isLocal := by
    simpa [hnil, ByteCursor.new] using htake
  generalize htail : bytes.drop (fixedSize isLocal) = tail at hvariable
  unfold FixedFields.variableSize at hvariable
  refine ⟨⟨f, tail.take f.filenameLen, (tail.drop f.filenameLen).take f.efLen,
    (tail.drop (f.filenameLen + f.efLen)).take f.commentLen⟩, ⟨hinRange, ?_, ?_, ?_⟩,
    tail.drop (f.filenameLen + f.efLen + f.commentLen), ?_⟩
  · simp
    omega
  · simp
    omega
  · simp
    omega
  · rw [← List.take_append_drop (fixedSize isLocal) bytes, hfields, htail, RawRecord.bytes]
    simp only [List.append_assoc, ← List.drop_drop,
      List.take_append_drop]

/-- **Reading an entry**: what is accepted is a record of whole parts, from a
buffer and from the file alike; the entry is what its parts say, and exactly the
record is consumed. -/
theorem direntRead_eq_ok_iff (calendar : Calendar) (fromBuffer isLocal : Bool) (bytes : Bytes)
    (de : ReadDirent) (n : Nat) :
    direntRead calendar fromBuffer isLocal bytes = .ok (de, n) ↔
      ∃ r : RawRecord, r.Valid isLocal ∧ r.read calendar isLocal = .ok de ∧
        n = (r.bytes isLocal).length ∧ ∃ rest, bytes = r.bytes isLocal ++ rest := by
  constructor
  · intro h
    obtain ⟨r, hvalid, rest, rfl⟩ := exists_record_of_direntRead h
    rw [direntRead_bytes calendar fromBuffer hvalid] at h
    cases hread : r.read calendar isLocal with
    | error e =>
        rw [hread] at h
        cases h
    | ok de' =>
        rw [hread] at h
        cases h
        exact ⟨r, hvalid, hread, rfl, rest, rfl⟩
  · rintro ⟨r, hvalid, hread, rfl, rest, rfl⟩
    rw [direntRead_bytes calendar fromBuffer hvalid, hread]
    rfl

end Archive
end AllvmTools
