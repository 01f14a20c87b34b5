import AllvmTools.Archive.DirentRead
import AllvmTools.Archive.Layout

/-!
# Written records, read back

What `_zip_dirent_write` makes of an entry as a record of the central directory,
and what `_zip_dirent_read` makes of it again.

* `direntRead_centralRecord` — a written record is read back as its entry, unless
  a number is exactly what marks a 64-bit one: then it is refused.
-/

namespace AllvmTools
namespace Archive

open Library Library.Text Library.Files Library.LittleEndian

/-! ## Flags -/

theorem hasBit_setBit_self {flags bit : Nat} {on : Bool} (hbit : bit ≠ 0)
    (hmask : (0xFFFF - bit) &&& bit = 0) : hasBit (setBit flags bit on) bit = on := by
  cases on with
  | true => simp [hasBit, setBit, Nat.and_or_distrib_right, hbit]
  | false => simp [hasBit, setBit, Nat.and_assoc, hmask]

theorem hasBit_setBit_of_disjoint {flags bit bit' : Nat} {on : Bool} (hbits : bit &&& bit' = 0)
    (hmask : (0xFFFF - bit) &&& bit' = bit') :
    hasBit (setBit flags bit on) bit' = hasBit flags bit' := by
  cases on with
  | true => simp [hasBit, setBit, Nat.and_or_distrib_right, hbits]
  | false => simp [hasBit, setBit, Nat.and_assoc, hmask]

theorem setBit_lt {flags bit : Nat} {on : Bool} (hflags : flags < 2 ^ 16) (hbit : bit < 2 ^ 16) :
    setBit flags bit on < 2 ^ 16 := by
  unfold setBit
  split
  · exact Nat.or_lt_two_pow hflags hbit
  · exact Nat.and_lt_two_pow _ (by omega)

theorem setBit_setBit_self (flags bit : Nat) (on : Bool) :
    setBit (setBit flags bit on) bit on = setBit flags bit on := by
  cases on with
  | true => simp only [setBit, if_true, Nat.or_assoc, Nat.or_self]
  | false => simp only [setBit, Bool.false_eq_true, if_false, Nat.and_assoc, Nat.and_self]

/-- Two bits are set or cleared in either order. -/
theorem setBit_comm {flags bit bit' : Nat} {on on' : Bool} (hmask : bit &&& (0xFFFF - bit') = bit)
    (hmask' : bit' &&& (0xFFFF - bit) = bit') :
    setBit (setBit flags bit on) bit' on' = setBit (setBit flags bit' on') bit on := by
  cases on <;> cases on' <;> simp only [setBit, if_true, Bool.false_eq_true, if_false]
  · rw [Nat.and_assoc, Nat.and_comm (0xFFFF - bit), Nat.and_assoc]
  · rw [Nat.and_or_distrib_right, hmask']
  · rw [Nat.and_or_distrib_right, hmask]
  · rw [Nat.or_assoc, Nat.or_comm bit, Nat.or_assoc]

/-- Correcting flags that are correct. -/
theorem withWriteFlags_withWriteFlags (de : Dirent) :
    de.withWriteFlags.withWriteFlags = de.withWriteFlags := by
  unfold Dirent.withWriteFlags
  dsimp only
  rw [@setBit_comm _ gpbfEncrypted gpbfEncodingUtf8 _ _ (by decide) (by decide), setBit_setBit_self,
    setBit_setBit_self]

theorem hasBit_withWriteFlags_encrypted (de : Dirent) :
    hasBit de.withWriteFlags.bitflags gpbfEncrypted = de.encrypted :=
  hasBit_setBit_self (by decide) (by decide)

theorem hasBit_withWriteFlags_utf8 (de : Dirent) :
    hasBit de.withWriteFlags.bitflags gpbfEncodingUtf8 = decide (de.nameEncoding = .utf8Known) := by
  unfold Dirent.withWriteFlags
  dsimp only
  rw [hasBit_setBit_of_disjoint (by decide) (by decide)]
  exact hasBit_setBit_self (by decide) (by decide)

/-! ## The record of an entry -/

/-- An entry whose numbers fit the fields of a record, as entries of files in
this program do. -/
structure Dirent.Writable (de : Dirent) : Prop where
  filename : de.filename.length < 2 ^ 16
  noNul : 0 ∉ de.filename
  nameEncoding : de.nameEncoding = .utf8Known → guessEncoding de.filename ≠ .cp437
  versionMadeby : de.versionMadeby < 2 ^ 16
  versionNeeded : de.versionNeeded < 2 ^ 16
  bitflags : de.bitflags < 2 ^ 16
  compMethod : de.compMethod.code < 2 ^ 16
  notWinzipAes : de.compMethod.code ≠ cmWinzipAes
  dosTime : de.dosTime < 2 ^ 16
  dosDate : de.dosDate < 2 ^ 16
  compSize : de.compSize < 2 ^ 64
  uncompSize : de.uncompSize < 2 ^ 64
  diskNumber : de.diskNumber < 2 ^ 16
  intAttrib : de.intAttrib < 2 ^ 16
  extAttrib : de.extAttrib < 2 ^ 32
  offset : de.offset ≤ int64Max

/-- A 32-bit size field as a number. -/
def sizeNumber (n : Nat) : Nat :=
  if n < uint32Max then n else uint32Max

theorem sizeNumber_lt (n : Nat) : sizeNumber n < 256 ^ 4 := by
  unfold sizeNumber uint32Max
  split <;> omega

theorem sizeNumber_eq_max_iff {n : Nat} : sizeNumber n = uint32Max ↔ uint32Max ≤ n := by
  unfold sizeNumber
  split <;> omega

theorem sizeField_eq (n : Nat) : sizeField n = le 4 (sizeNumber n) :=
  rfl

theorem sizeNumber_of_lt {n : Nat} (h : ¬ uint32Max ≤ n) : sizeNumber n = n :=
  if_pos (by omega)

/-- The numbers that a record of the entry holds. -/
def Dirent.recordFields (de : Dirent) : FixedFields where
  versionMadeby := if de.needsZip64 true then 45 else de.versionMadeby
  versionNeeded := if de.needsZip64 true then 45 else de.versionNeeded
  bitflags := de.withWriteFlags.bitflags
  compMethod := de.compMethod.code
  dostime := de.dosTime
  dosdate := de.dosDate
  crc := de.crc.toNat
  compSize := sizeNumber de.compSize
  uncompSize := sizeNumber de.uncompSize
  filenameLen := de.filename.length
  efLen := de.centralExtra.length
  commentLen := 0
  diskNumber := de.diskNumber
  intAttrib := de.intAttrib
  extAttrib := de.extAttrib
  offset := sizeNumber de.offset

/-- The parts that a record of the entry is written from. -/
def Dirent.record (de : Dirent) : RawRecord :=
  ⟨de.recordFields, de.filename, de.centralExtra, []⟩

theorem length_centralExtra_le (de : Dirent) : de.centralExtra.length ≤ 28 := by
  unfold Dirent.centralExtra Dirent.centralZip64Field
  split
  · rw [length_extraField]
    split
    · simp only [List.length_append]
      split <;> split <;> split <;> simp
    · simp
  · simp

theorem needsZip64_withWriteFlags (de : Dirent) (central : Bool) :
    de.withWriteFlags.needsZip64 central = de.needsZip64 central :=
  rfl

theorem centralExtra_withWriteFlags (de : Dirent) :
    de.withWriteFlags.centralExtra = de.centralExtra :=
  rfl

theorem bytes_record (de : Dirent) :
    de.record.bytes false = de.withWriteFlags.centralRecord := by
  unfold Dirent.centralRecord Dirent.centralFixed Dirent.commonFields
  rw [needsZip64_withWriteFlags, centralExtra_withWriteFlags]
  simp [RawRecord.bytes, Dirent.record, Dirent.recordFields, FixedFields.layout, leIf, headerMagic,
    Dirent.withWriteFlags, sizeField_eq]

theorem Dirent.Writable.valid_record {de : Dirent} (h : de.Writable) : de.record.Valid false where
  inRange := by
    have hflags : de.withWriteFlags.bitflags < 256 ^ 2 :=
      setBit_lt (setBit_lt h.bitflags (by decide)) (by decide)
    have hcrc : de.crc.toNat < 256 ^ 4 := de.crc.toNat_lt
    have hextra := length_centralExtra_le de
    constructor <;> simp only [record, recordFields]
    case bitflags => exact hflags
    case crc => exact hcrc
    case compSize | uncompSize | offset => exact sizeNumber_lt _
    case efLen => omega
    case versionMadeby =>
      have := h.versionMadeby
      simp
      split <;> omega
    case versionNeeded =>
      have := h.versionNeeded
      split <;> omega
    all_goals first
      | exact h.compMethod
      | exact h.dosTime
      | exact h.dosDate
      | exact h.filename
      | exact h.diskNumber
      | exact h.intAttrib
      | exact h.extAttrib
      | simp
  name := rfl
  extra := rfl
  comment := rfl

/-! ## Reading it back -/

/-- The name as it is read. -/
def Dirent.readName (de : Dirent) : Option ZipString :=
  if de.filename = [] then
    none
  else if de.nameEncoding = .utf8Known then
    (ZipString.mk de.filename none).expectUtf8
  else
    some ⟨de.filename, none⟩

/-- The entry as its record gives it. -/
def Dirent.readBack (calendar : Calendar) (de : Dirent) : ReadDirent where
  versionMadeby := if de.needsZip64 true then 45 else de.versionMadeby
  versionNeeded := if de.needsZip64 true then 45 else de.versionNeeded
  bitflags := de.withWriteFlags.bitflags
  compMethod := de.compMethod.code
  lastMod := calendar.d2uTime de.dosTime de.dosDate
  crc := de.crc
  crcValid := true
  compSize := de.compSize
  uncompSize := de.uncompSize
  filename := de.readName
  comment := none
  extraFields := []
  localExtraFieldsRead := false
  diskNumber := de.diskNumber
  intAttrib := de.intAttrib
  extAttrib := de.extAttrib
  offset := de.offset
  encryptionMethod :=
    if de.encrypted then
      if hasBit de.withWriteFlags.bitflags gpbfStrongEncryption then .unknown else .tradPkware
    else
      .none

/-- The writer leaves the ZIP64 field empty although a number is marked, or the
reader takes the number of the disk for a marked one. -/
def Dirent.Misread (de : Dirent) : Prop :=
  de.needsZip64 true = true ∧
    (de.diskNumber = 0xFFFF ∨
      (de.compSize ≤ uint32Max ∧ de.uncompSize ≤ uint32Max ∧ de.offset ≤ uint32Max))

instance (de : Dirent) : Decidable de.Misread :=
  inferInstanceAs (Decidable (_ ∧ _))

theorem blankNul_of_notMem {name : Bytes} (h : 0 ∉ name) : blankNul name = name := by
  unfold blankNul
  rw [List.map_congr_left (g := id), List.map_id]
  intro b hb
  rw [if_neg]
  · rfl
  · rintro rfl
    exact h hb

theorem expectUtf8_eq_none_iff (raw : Bytes) :
    (ZipString.mk raw none).expectUtf8 = none ↔ guessEncoding raw = .cp437 := by
  unfold ZipString.expectUtf8 ZipString.guess
  cases hguess : guessEncoding raw <;> simp

theorem Dirent.Writable.stringOf_filename {de : Dirent} (h : de.Writable) :
    stringOf de.withWriteFlags.bitflags (blankNul de.filename) = .ok de.readName := by
  rw [blankNul_of_notMem h.noNul]
  unfold stringOf readName
  rw [hasBit_withWriteFlags_utf8]
  split
  · rfl
  by_cases hknown : de.nameEncoding = .utf8Known
  · rw [if_pos (decide_eq_true hknown), if_pos hknown]
    cases hs : (ZipString.mk de.filename none).expectUtf8 with
    | none => exact absurd ((expectUtf8_eq_none_iff _).mp hs) (h.nameEncoding hknown)
    | some s => rfl
  · rw [if_neg (by simpa using hknown), if_neg hknown]

/-- The 64-bit numbers of a record: those that are marked. -/
def Dirent.centralZip64Numbers (de : Dirent) : Bytes :=
  (if uint32Max ≤ de.uncompSize then le 8 de.uncompSize else []) ++
    ((if uint32Max ≤ de.compSize then le 8 de.compSize else []) ++
    (if uint32Max ≤ de.offset then le 8 de.offset else []))

/-- What the ZIP64 field of a record holds: no number where none is beyond the mark. -/
def Dirent.centralZip64Data (de : Dirent) : Bytes :=
  if uint32Max < de.compSize ∨ uint32Max < de.uncompSize ∨ uint32Max < de.offset then
    de.centralZip64Numbers
  else
    []

/-- The ZIP64 field of a header, where there is one. -/
def zip64Fields (isLocal present : Bool) (data : Bytes) : List ExtraField :=
  if present then [⟨.of isLocal, efZip64, data⟩] else []

theorem efParse_zip64Fields {isLocal present : Bool} {data : Bytes} (hdata : data.length < 2 ^ 16) :
    efParse (.of isLocal) (efBytes (zip64Fields isLocal present data)) =
      .ok (zip64Fields isLocal present data) := by
  rw [efParse_eq_ok_iff]
  refine ⟨fun ef hef => ?_, [], (List.append_nil _).symm, by simp [IsPadding]⟩
  unfold zip64Fields at hef
  split at hef
  · rw [List.mem_singleton] at hef
    subst hef
    exact ⟨rfl, by simp [efZip64], hdata⟩
  · cases hef

/-- A ZIP64 field is no Unicode text. -/
theorem processEfUtf8_zip64Fields (isLocal present : Bool) (data : Bytes) {id : Nat}
    (hid : id ≠ efZip64) (str : Option ZipString) :
    processEfUtf8 (zip64Fields isLocal present data) id str = str := by
  have hnone : efGetById (zip64Fields isLocal present data) id 0 .both = none := by
    unfold zip64Fields
    split
    · simp [efGetById, Ne.symm hid]
    · rfl
  unfold processEfUtf8
  rw [hnone]

theorem efRemoveInternal_zip64Fields (isLocal present : Bool) (data : Bytes) :
    efRemoveInternal (zip64Fields isLocal present data) = [] := by
  unfold zip64Fields efRemoveInternal
  split <;> simp [efIsInternal]

theorem efGetById_zip64Fields (isLocal : Bool) (data : Bytes) :
    efGetById (zip64Fields isLocal true data) efZip64 0 (.of isLocal) = some data := by
  cases isLocal <;> simp [zip64Fields, efGetById, EfFlags.of, EfFlags.overlap]

/-- The extra fields of a record. -/
def Dirent.centralFields (de : Dirent) : List ExtraField :=
  zip64Fields false (de.needsZip64 true) de.centralZip64Data

theorem centralExtra_eq (de : Dirent) : de.centralExtra = efBytes de.centralFields := by
  unfold Dirent.centralExtra Dirent.centralFields Dirent.centralZip64Field efBytes zip64Fields
  split <;> simp [Dirent.centralZip64Data, Dirent.centralZip64Numbers, efZip64]

theorem length_centralZip64Data_le (de : Dirent) : de.centralZip64Data.length ≤ 24 := by
  unfold Dirent.centralZip64Data Dirent.centralZip64Numbers
  split
  · simp only [List.length_append]
    split <;> split <;> split <;> simp
  · simp

theorem efParse_centralExtra (de : Dirent) :
    efParse (.of false) de.centralExtra = .ok de.centralFields := by
  have hdata := length_centralZip64Data_le de
  rw [centralExtra_eq]
  exact efParse_zip64Fields (by omega)

/-- A number of a record: read from the 64-bit ones where it is marked. -/
theorem getLE_of_marked {n : Nat} (hn : n < 2 ^ 64) (before rest : Bytes) :
    (if sizeNumber n = uint32Max then
      (ByteCursor.mk before ((if uint32Max ≤ n then le 8 n else []) ++ rest) true).getLE 8
    else
      (sizeNumber n, ByteCursor.mk before ((if uint32Max ≤ n then le 8 n else []) ++ rest) true)) =
      (n, ByteCursor.mk (before ++ if uint32Max ≤ n then le 8 n else []) rest true) := by
  by_cases hmarked : uint32Max ≤ n
  · rw [if_pos (sizeNumber_eq_max_iff.mpr hmarked), if_pos hmarked, ByteCursor.getLE_append,
      Nat.mod_eq_of_lt (by simpa using hn)]
  · rw [if_neg (mt sizeNumber_eq_max_iff.mp hmarked), if_neg hmarked, sizeNumber_of_lt hmarked]
    simp

/-- The entry of a record before its 64-bit numbers are looked at. -/
def Dirent.readMarked (calendar : Calendar) (de : Dirent) : ReadDirent :=
  { de.readBack calendar with
    compSize := sizeNumber de.compSize
    uncompSize := sizeNumber de.uncompSize
    extraFields := de.centralFields
    offset := sizeNumber de.offset }

theorem withVariable_recordFields (calendar : Calendar) (de : Dirent) :
    de.recordFields.withVariable calendar false de.readName de.centralFields none =
      de.readMarked calendar := by
  unfold FixedFields.withVariable Dirent.centralFields
  rw [processEfUtf8_zip64Fields _ _ _ (by decide), processEfUtf8_zip64Fields _ _ _ (by decide)]
  unfold FixedFields.readDirent Dirent.readMarked Dirent.readBack Dirent.recordFields
  dsimp only
  rw [hasBit_withWriteFlags_encrypted, UInt32.ofNat_toNat]
  rfl

theorem needsZip64_eq_true_iff (de : Dirent) :
    de.needsZip64 true = true ↔
      uint32Max ≤ de.uncompSize ∨ uint32Max ≤ de.compSize ∨ uint32Max ≤ de.offset := by
  simp [Dirent.needsZip64, or_assoc]

/-- Where no number is marked there is nothing to look at. -/
theorem zip64_of_small {calendar : Calendar} {de : Dirent} (h : de.needsZip64 true = false) :
    (de.readMarked calendar).zip64 false = .ok (de.readMarked calendar) := by
  have hsmall : ¬ de.needsZip64 true = true := by simp [h]
  rw [needsZip64_eq_true_iff] at hsmall
  unfold ReadDirent.zip64 Dirent.readMarked
  simp only [sizeNumber_eq_max_iff]
  rw [if_neg hsmall]

theorem efGetById_centralFields {de : Dirent} (h : de.needsZip64 true = true) :
    efGetById de.centralFields efZip64 0 (.of false) = some de.centralZip64Data := by
  unfold Dirent.centralFields
  rw [h, efGetById_zip64Fields]

/-- The marked numbers are read from the ZIP64 field, and so is the number of the
disk where it looks marked. -/
theorem zip64_of_numbers (calendar : Calendar) {de : Dirent} (hde : de.Writable)
    (h : de.needsZip64 true = true) (hdata : de.centralZip64Data = de.centralZip64Numbers) :
    (de.readMarked calendar).zip64 false =
      if de.diskNumber = 0xFFFF then .error .incons
      else .ok { de.readBack calendar with extraFields := de.centralFields } := by
  have hmarked := (needsZip64_eq_true_iff de).mp h
  have hfield := efGetById_centralFields h
  have hoffset := hde.offset
  unfold int64Max at hoffset
  have huncomp := getLE_of_marked hde.uncompSize []
    ((if uint32Max ≤ de.compSize then le 8 de.compSize else []) ++
      ((if uint32Max ≤ de.offset then le 8 de.offset else []) ++ []))
  have hcomp := getLE_of_marked hde.compSize
    ([] ++ if uint32Max ≤ de.uncompSize then le 8 de.uncompSize else [])
    ((if uint32Max ≤ de.offset then le 8 de.offset else []) ++ [])
  have hofs := getLE_of_marked (n := de.offset) (by omega)
    ([] ++ (if uint32Max ≤ de.uncompSize then le 8 de.uncompSize else []) ++
      if uint32Max ≤ de.compSize then le 8 de.compSize else []) []
  unfold ReadDirent.zip64 Dirent.readMarked
  simp only [hfield, hdata, Dirent.centralZip64Numbers, ByteCursor.new]
  rw [if_pos (by simpa only [sizeNumber_eq_max_iff] using hmarked)]
  simp only [List.append_nil] at huncomp hcomp hofs
  simp only [huncomp, hcomp, hofs, true_and, Bool.false_eq_true, if_false]
  have hdisk : (de.readBack calendar).diskNumber = de.diskNumber := rfl
  rw [hdisk]
  by_cases hlast : de.diskNumber = 0xFFFF
  · simp [hlast, ByteCursor.getLE, ByteCursor.get, ByteCursor.eof]
  · simp only [if_neg hlast, ByteCursor.eof, List.isEmpty_nil, Bool.and_self, if_true]
    rfl

/-- Reading a marked number leaves nothing where nothing was ahead. -/
theorem rest_of_marked {p : Prop} [Decidable p] {width n : Nat} {c : ByteCursor}
    (hc : c.rest = []) : (if p then c.getLE width else (n, c)).2.rest = [] := by
  split
  · simp only [ByteCursor.getLE, ByteCursor.get, hc]
    split <;> simp
  · exact hc

/-- A marked number is not read where nothing is ahead. -/
theorem ok_of_marked {p : Prop} [Decidable p] {width n : Nat} {c : ByteCursor} (hc : c.rest = [])
    (hwidth : width ≠ 0) (h : (if p then c.getLE width else (n, c)).2.ok = true) :
    ¬ p ∧ c.ok = true := by
  split at h
  · simp [ByteCursor.getLE, ByteCursor.get, hc, hwidth] at h
  · next hp => exact ⟨hp, h⟩

/-- Nothing is read from an empty ZIP64 field. -/
theorem zip64_of_empty {calendar : Calendar} {de : Dirent}
    (h : de.needsZip64 true = true) (hdata : de.centralZip64Data = []) :
    (de.readMarked calendar).zip64 false = .error .incons := by
  have hmarked := (needsZip64_eq_true_iff de).mp h
  have hfield := efGetById_centralFields h
  unfold ReadDirent.zip64 Dirent.readMarked
  simp only [hfield, hdata, ByteCursor.new]
  rw [if_pos (by simpa only [sizeNumber_eq_max_iff] using hmarked)]
  simp only [true_and, Bool.false_eq_true, if_false]
  rw [if_neg]
  intro heof
  rw [ByteCursor.eof, Bool.and_eq_true] at heof
  -- from the last number to the first: none of them is marked
  obtain ⟨-, hok⟩ := ok_of_marked (rest_of_marked (rest_of_marked (rest_of_marked rfl)))
    (by decide) heof.1
  obtain ⟨hoffset, hok⟩ := ok_of_marked (rest_of_marked (rest_of_marked rfl)) (by decide) hok
  obtain ⟨hcomp, hok⟩ := ok_of_marked (rest_of_marked rfl) (by decide) hok
  obtain ⟨huncomp, -⟩ := ok_of_marked rfl (by decide) hok
  rw [sizeNumber_eq_max_iff] at hoffset hcomp huncomp
  omega

/-- The part behind the 64-bit numbers changes nothing but the extra fields. -/
theorem finish_of_zip64 {calendar : Calendar} {de : Dirent} (h : de.Writable) {de' : ReadDirent}
    (hzip64 : de'.zip64 false =
      .ok { de.readBack calendar with extraFields := de.centralFields }) :
    de'.finish false true = .ok (de.readBack calendar) := by
  have hremove : efRemoveInternal de.centralFields = [] :=
    efRemoveInternal_zip64Fields ..
  have hoffset := h.offset
  unfold ReadDirent.finish
  rw [hzip64]
  dsimp only
  rw [if_neg (by decide), if_neg (by simpa [Dirent.readBack] using hoffset),
    ReadDirent.processWinzipAes, if_pos (by simpa [Dirent.readBack] using h.notWinzipAes)]
  dsimp only
  rw [hremove]
  rfl

theorem finish_readMarked (calendar : Calendar) {de : Dirent} (h : de.Writable) :
    (de.readMarked calendar).finish false true =
      if de.Misread then .error .incons else .ok (de.readBack calendar) := by
  cases hneeds : de.needsZip64 true with
  | false =>
      have hsmall : ¬ de.needsZip64 true = true := by simp [hneeds]
      rw [if_neg (fun hmisread => hsmall hmisread.1)]
      rw [needsZip64_eq_true_iff, not_or, not_or] at hsmall
      apply finish_of_zip64 h
      rw [zip64_of_small hneeds, Dirent.readMarked, sizeNumber_of_lt hsmall.1,
        sizeNumber_of_lt hsmall.2.1, sizeNumber_of_lt hsmall.2.2]
      rfl
  | true =>
      by_cases hbeyond : uint32Max < de.compSize ∨ uint32Max < de.uncompSize ∨ uint32Max < de.offset
      · have hzip64 := zip64_of_numbers calendar h hneeds (if_pos hbeyond)
        by_cases hdisk : de.diskNumber = 0xFFFF
        · rw [if_pos hdisk] at hzip64
          rw [if_pos ⟨hneeds, Or.inl hdisk⟩, ReadDirent.finish, hzip64]
        · rw [if_neg hdisk] at hzip64
          rw [if_neg, finish_of_zip64 h hzip64]
          rintro ⟨-, hmarked | hsizes⟩
          · exact hdisk hmarked
          · omega
      · rw [if_pos ⟨hneeds, Or.inr (by omega)⟩, ReadDirent.finish,
          zip64_of_empty hneeds (if_neg hbeyond)]

/-- The record of an entry is read as the entry, unless it is misread. -/
theorem read_record (calendar : Calendar) {de : Dirent} (h : de.Writable) :
    de.record.read calendar false =
      if de.Misread then .error .incons else .ok (de.readBack calendar) := by
  have hname := h.stringOf_filename
  have hextra := efParse_centralExtra de
  rw [← finish_readMarked calendar h, ← withVariable_recordFields]
  unfold RawRecord.read RawRecord.parts Dirent.record
  rw [show de.recordFields.bitflags = de.withWriteFlags.bitflags from rfl, hname, hextra]
  rfl

/-- **A record, written and read back**: the entry, unless a number is exactly what
marks a 64-bit one, or the number of the disk looks marked: then it is refused. -/
theorem direntRead_centralRecord (calendar : Calendar) (fromBuffer : Bool) {de : Dirent}
    (h : de.Writable) (rest : Bytes) :
    direntRead calendar fromBuffer false (de.withWriteFlags.centralRecord ++ rest) =
      if de.Misread then .error .incons
      else .ok (de.readBack calendar, de.withWriteFlags.centralRecord.length) := by
  rw [← bytes_record, direntRead_bytes calendar fromBuffer h.valid_record,
    read_record calendar h]
  split <;> rfl

/-- The entry of an empty main module behind nine bytes. -/
def emptyMain : Dirent :=
  { Dirent.init with
    filename := ascii "main.bc"
    compMethod := .store
    offset := 9 }

theorem writable_emptyMain : emptyMain.Writable := by
  constructor
  case nameEncoding =>
    intro hknown
    cases hknown
  all_goals decide

theorem direntRead_centralRecord_emptyMain :
    direntRead firstDay false false (emptyMain.withWriteFlags.centralRecord ++ [0x50, 0x4B]) =
      .ok (emptyMain.readBack firstDay, 53) := by
  rw [direntRead_centralRecord firstDay false writable_emptyMain, if_neg (by decide)]
  rfl

end Archive
end AllvmTools
