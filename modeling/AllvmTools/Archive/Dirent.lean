import AllvmTools.Library.FileSystem
import AllvmTools.Library.LittleEndian

/-!
# Directory entries and their headers

The directory entries of a zip archive and `_zip_dirent_write`, which writes an
entry as a local header or as a central-directory record.  Entries carry neither
a comment nor extra fields of their own: nothing in this program adds any, and
the ZIP64 field is made from the sizes.
-/

namespace AllvmTools
namespace Archive

open Library Library.Files Library.LittleEndian

/-- `zip_int32_t` compression methods; the two defaults stand for deflate. -/
inductive Method where
  | default
  | replacedDefault
  | store
  | deflate
  | other (code : Nat)
deriving DecidableEq, Repr

/-- The 16-bit code a header holds. -/
def Method.code : Method → Nat
  | default => 0xFFFF
  | replacedDefault => 0xFFFE
  | store => 0
  | deflate => 8
  | other code => code

/-- `ZIP_CM_IS_DEFAULT`. -/
def Method.isDefault : Method → Bool
  | default => true
  | replacedDefault => true
  | _ => false

/-- `ZIP_CM_ACTUAL`. -/
def Method.actual (m : Method) : Method :=
  if m.isDefault then deflate else m

/-- What is known of a name's encoding. -/
inductive Encoding where
  | ascii
  | utf8Known
  | utf8Guessed
  | cp437
deriving DecidableEq, Repr

structure Dirent where
  filename : Text
  nameEncoding : Encoding
  versionMadeby : Nat
  versionNeeded : Nat
  bitflags : Nat
  compMethod : Method
  encrypted : Bool
  dosTime : Nat
  dosDate : Nat
  crc : UInt32
  compSize : Nat
  uncompSize : Nat
  diskNumber : Nat
  intAttrib : Nat
  extAttrib : Nat
  offset : Nat
deriving DecidableEq, Repr

/-- `_zip_dirent_init`. -/
def Dirent.init : Dirent where
  filename := []
  nameEncoding := .ascii
  versionMadeby := 63 ||| (3 <<< 8)
  versionNeeded := 10
  bitflags := 0
  compMethod := .default
  encrypted := false
  dosTime := 0
  dosDate := 0
  crc := 0
  compSize := 0
  uncompSize := 0
  diskNumber := 0
  intAttrib := 0
  extAttrib := 0x81B60000
  offset := 0

/-- `ZIP_UINT32_MAX`. -/
def uint32Max : Nat := 0xFFFFFFFF

/-- `ZIP_INT64_MAX`. -/
def int64Max : Nat := 0x7FFFFFFFFFFFFFFF

/-- `_zip_dirent_needs_zip64`; only central records count the offset. -/
def Dirent.needsZip64 (de : Dirent) (central : Bool) : Bool :=
  decide (uint32Max ≤ de.uncompSize) || decide (uint32Max ≤ de.compSize) ||
    (central && decide (uint32Max ≤ de.offset))

def gpbfEncrypted : Nat := 0x0001
def gpbfDataDescriptor : Nat := 0x0008
def gpbfEncodingUtf8 : Nat := 0x0800

/-- A bit set or cleared in 16-bit flags. -/
def setBit (flags bit : Nat) (on : Bool) : Nat :=
  if on then flags ||| bit else flags &&& (0xFFFF - bit)

/-- The bit flags as `_zip_dirent_write` corrects them before writing. -/
def Dirent.withWriteFlags (de : Dirent) : Dirent :=
  { de with
    bitflags := setBit (setBit de.bitflags gpbfEncodingUtf8
        (decide (de.nameEncoding = .utf8Known)))
      gpbfEncrypted de.encrypted }

/-- A 32-bit size field: values that do not fit are marked. -/
def sizeField (n : Nat) : Bytes :=
  le 4 (if n < uint32Max then n else uint32Max)

/-- An extra field with its tag and length. -/
def extraField (tag : Nat) (data : Bytes) : Bytes :=
  le 2 tag ++ le 2 data.length ++ data

/-- The ZIP64 extra field of a local header. -/
def Dirent.localZip64Field (de : Dirent) (force : Bool) : Bytes :=
  extraField 1 <|
    if force || decide (uint32Max < de.compSize) || decide (uint32Max < de.uncompSize) then
      le 8 de.uncompSize ++ le 8 de.compSize
    else
      []

/-- The ZIP64 extra field of a central record. -/
def Dirent.centralZip64Field (de : Dirent) : Bytes :=
  extraField 1 <|
    if uint32Max < de.compSize ∨ uint32Max < de.uncompSize ∨ uint32Max < de.offset then
      (if uint32Max ≤ de.uncompSize then le 8 de.uncompSize else []) ++
      (if uint32Max ≤ de.compSize then le 8 de.compSize else []) ++
      (if uint32Max ≤ de.offset then le 8 de.offset else [])
    else
      []

/-- Whether a local header gets a ZIP64 field: the return value of
`_zip_dirent_write` with `ZIP_FL_LOCAL`. -/
def Dirent.localIsZip64 (de : Dirent) (force : Bool) : Bool :=
  force || de.needsZip64 false

/-- The version, flags, method, time, CRC, which both forms share. -/
def Dirent.commonFields (de : Dirent) (reallyZip64 : Bool) : Bytes :=
  le 2 (if reallyZip64 then 45 else de.versionNeeded) ++
  le 2 de.bitflags ++
  le 2 de.compMethod.code ++
  le 2 de.dosTime ++
  le 2 de.dosDate ++
  le 4 de.crc.toNat

/-- The two sizes of a local header. -/
def Dirent.localSizes (de : Dirent) : Bytes :=
  if uint32Max ≤ de.compSize ∨ uint32Max ≤ de.uncompSize then
    le 4 uint32Max ++ le 4 uint32Max
  else
    sizeField de.compSize ++ sizeField de.uncompSize

def localMagic : Bytes := [0x50, 0x4B, 3, 4]
def centralMagic : Bytes := [0x50, 0x4B, 1, 2]

/-- The extra bytes of a local header. -/
def Dirent.localExtra (de : Dirent) (force : Bool) : Bytes :=
  if de.localIsZip64 force then de.localZip64Field force else []

/-- The part of a local header before the name. -/
def Dirent.localFixed (de : Dirent) (force : Bool) : Bytes :=
  localMagic ++ de.commonFields (de.needsZip64 false) ++ de.localSizes ++
    le 2 de.filename.length ++ le 2 (de.localExtra force).length

/-- `_zip_dirent_write` with `ZIP_FL_LOCAL`, for an entry with corrected flags. -/
def Dirent.localHeader (de : Dirent) (force : Bool) : Bytes :=
  de.localFixed force ++ de.filename ++ de.localExtra force

/-- The extra bytes of a central record. -/
def Dirent.centralExtra (de : Dirent) : Bytes :=
  if de.needsZip64 true then de.centralZip64Field else []

/-- The part of a central record before the name. -/
def Dirent.centralFixed (de : Dirent) : Bytes :=
  centralMagic ++
    le 2 (if de.needsZip64 true then 45 else de.versionMadeby) ++
    de.commonFields (de.needsZip64 true) ++
    sizeField de.compSize ++ sizeField de.uncompSize ++
    le 2 de.filename.length ++ le 2 de.centralExtra.length ++
    le 2 0 ++ le 2 de.diskNumber ++ le 2 de.intAttrib ++ le 4 de.extAttrib ++
    sizeField de.offset

/-- `_zip_dirent_write` with `ZIP_FL_CENTRAL`, for an entry with corrected flags. -/
def Dirent.centralRecord (de : Dirent) : Bytes :=
  de.centralFixed ++ de.filename ++ de.centralExtra

/-- The ZIP64 end records of `_zip_cdir_write`. -/
def eocd64 (survivors size offset : Nat) : Bytes :=
  [0x50, 0x4B, 6, 6] ++ le 8 44 ++ le 2 45 ++ le 2 45 ++ le 4 0 ++ le 4 0 ++
    le 8 survivors ++ le 8 survivors ++ le 8 size ++ le 8 offset ++
    [0x50, 0x4B, 6, 7] ++ le 4 0 ++ le 8 (offset + size) ++ le 4 1

/-- The end record of `_zip_cdir_write`. -/
def eocd (survivors size offset : Nat) : Bytes :=
  [0x50, 0x4B, 5, 6] ++ le 4 0 ++ le 2 (min survivors 0xFFFF) ++ le 2 (min survivors 0xFFFF) ++
    sizeField size ++ sizeField offset ++ le 2 0

/-- What `_zip_cdir_write` puts behind the central records: `zip64` is its
`is_zip64` after the records. -/
def cdirEnd (zip64 : Bool) (survivors size offset : Nat) : Bytes :=
  (if zip64 || decide (uint32Max < offset) || decide (0xFFFF < survivors) then
    eocd64 survivors size offset
  else
    []) ++ eocd survivors size offset

/-- The size of the fixed part of a local header. -/
def lentrySize : Nat := 30

/-- `_zip_dirent_size` of a local header read at an offset: it trusts the two
length fields there and looks at nothing else. -/
def direntSize (file : Bytes) (offset : Nat) : Option Nat :=
  let lengths := (file.drop (offset + 26)).take 4
  if lengths.length = 4 then
    some (lentrySize + ofLE (lengths.take 2) + ofLE (lengths.drop 2))
  else
    none

/-! ## The length of a local header -/

@[simp] theorem length_sizeField (n : Nat) : (sizeField n).length = 4 :=
  length_le ..

@[simp] theorem length_commonFields (de : Dirent) (reallyZip64 : Bool) :
    (de.commonFields reallyZip64).length = 14 := by
  simp [Dirent.commonFields]

@[simp] theorem length_localSizes (de : Dirent) : de.localSizes.length = 8 := by
  unfold Dirent.localSizes
  split <;> simp

theorem length_localHeader (de : Dirent) (force : Bool) :
    (de.localHeader force).length =
      lentrySize + de.filename.length + (de.localExtra force).length := by
  simp only [Dirent.localHeader, Dirent.localFixed, List.length_append, length_commonFields,
    length_localSizes, length_le, localMagic, lentrySize, List.length_cons, List.length_nil]

theorem length_localExtra_le (de : Dirent) (force : Bool) :
    (de.localExtra force).length ≤ 20 := by
  unfold Dirent.localExtra Dirent.localZip64Field extraField
  split
  · split <;> simp
  · simp

/-- A forced ZIP64 field has both sizes. -/
theorem length_localExtra_forced (de : Dirent) : (de.localExtra true).length = 20 := by
  simp [Dirent.localExtra, Dirent.localIsZip64, Dirent.localZip64Field, extraField]

theorem localExtra_eq_nil {de : Dirent} {force : Bool} (h : de.localIsZip64 force = false) :
    de.localExtra force = [] := by
  unfold Dirent.localExtra
  rw [h]
  rfl

theorem length_centralRecord_le (de : Dirent) :
    de.centralRecord.length ≤ 74 + de.filename.length := by
  have hextra : de.centralExtra.length ≤ 28 := by
    unfold Dirent.centralExtra Dirent.centralZip64Field extraField
    split
    · split
      · simp only [List.length_append, length_le]
        split <;> split <;> split <;> simp
      · simp
    · simp
  simp only [Dirent.centralRecord, Dirent.centralFixed, List.length_append, length_commonFields,
    length_sizeField, length_le, centralMagic, List.length_cons, List.length_nil]
  omega

theorem length_cdirEnd_le (zip64 : Bool) (survivors size offset : Nat) :
    (cdirEnd zip64 survivors size offset).length ≤ 98 := by
  have heocd : (eocd survivors size offset).length = 22 := by
    simp [eocd]
  have heocd64 : (eocd64 survivors size offset).length = 76 := by
    simp [eocd64]
  unfold cdirEnd
  rw [List.length_append, heocd]
  split
  · rw [heocd64]
  · simp

/-- The length fields of a written local header give its length. -/
theorem direntSize_localHeader (de : Dirent) (force : Bool) (before after : Bytes)
    (hname : de.filename.length ≤ 0xFFFF) :
    direntSize (before ++ (de.localHeader force ++ after)) before.length =
      some (de.localHeader force).length := by
  have hsplit : before ++ (de.localHeader force ++ after) =
      (before ++ (localMagic ++ de.commonFields (de.needsZip64 false) ++ de.localSizes)) ++
        ((le 2 de.filename.length ++ le 2 (de.localExtra force).length) ++
          (de.filename ++ de.localExtra force ++ after)) := by
    simp [Dirent.localHeader, Dirent.localFixed]
  have hfront : (before ++ (localMagic ++ de.commonFields (de.needsZip64 false) ++
      de.localSizes)).length = before.length + 26 := by
    simp [localMagic]
  have hlengths : ((before ++ (de.localHeader force ++ after)).drop (before.length + 26)).take 4 =
      le 2 de.filename.length ++ le 2 (de.localExtra force).length := by
    rw [hsplit, ← hfront, List.drop_left]
    exact List.take_left' (by simp)
  have hextra := length_localExtra_le de force
  have hnameField : ofLE (le 2 de.filename.length) = de.filename.length :=
    ofLE_le_of_lt (by omega)
  have hextraField : ofLE (le 2 (de.localExtra force).length) = (de.localExtra force).length :=
    ofLE_le_of_lt (by omega)
  unfold direntSize
  simp only [hlengths, List.take_left' (length_le 2 _), List.drop_left' (length_le 2 _),
    hnameField, hextraField, length_localHeader]
  rw [if_pos (by simp)]

end Archive
end AllvmTools
