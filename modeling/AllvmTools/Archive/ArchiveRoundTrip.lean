import AllvmTools.Archive.CentralDirectorySearch
import AllvmTools.Archive.DirectoryRecords
import AllvmTools.Archive.RecordRoundTrip

/-!
# Written archives, read back

What `_zip_find_central_dir` finds in an archive as `zip_close` lays it out: the
end records of `_zip_cdir_write`, the records in front of them, and what else in
the file may look like an end record.

* `ReadableArchive.readableDirs_eq` — the directory that was written is the last one
  that can be read.
-/

namespace AllvmTools
namespace Archive

open Library Library.Text Library.Files Library.LittleEndian
open Library.Leaving.Program Library.Reader

/-! ## End records, written and read back -/

/-- The directory has a 64-bit end record. -/
def isZip64End (zip64 : Bool) (survivors offset : Nat) : Bool :=
  zip64 || decide (uint32Max < offset) || decide (0xFFFF < survivors)

/-- The numbers of an end record fit its fields. -/
structure EndFits (zip64 : Bool) (survivors size offset : Nat) : Prop where
  allocatable : survivors ≤ (2 ^ 64 - 1) / sizeofZipEntry
  inFile : offset + size ≤ int64Max
  plainSize : isZip64End zip64 survivors offset = false → size ≤ uint32Max

theorem reads_allocate {r : EndRecord} (h : r.nentry ≤ (2 ^ 64 - 1) / sizeofZipEntry) :
    Reads r.allocate [] r := by
  have hgrow : ∃ n, cdirGrow 0 r.nentry = .ok n := by
    unfold cdirGrow
    split
    · exact ⟨0, rfl⟩
    · unfold sizeofZipEntry at h ⊢
      dsimp only
      rw [Nat.zero_add, Nat.mod_eq_of_lt (by omega), if_neg (by omega)]
      exact ⟨_, rfl⟩
  obtain ⟨n, hgrow⟩ := hgrow
  unfold EndRecord.allocate
  rw [hgrow]
  exact reads_pure r

theorem sizeNumber_of_le {n : Nat} (h : n ≤ uint32Max) : sizeNumber n = n := by
  unfold sizeNumber
  split <;> omega

theorem isZip64End_eq_false_iff {zip64 : Bool} {survivors offset : Nat} :
    isZip64End zip64 survivors offset = false ↔
      zip64 = false ∧ offset ≤ uint32Max ∧ survivors ≤ 0xFFFF := by
  simp [isZip64End, and_assoc]

/-- The plain end record. -/
theorem readEocd_eocd {zip64 : Bool} {survivors size offset bufOffset eocdOffset : Nat}
    (h : EndFits zip64 survivors size offset) (hplain : isZip64End zip64 survivors offset = false)
    (hinside : offset + size ≤ bufOffset + eocdOffset) (before : Bytes) :
    (readEocd bufOffset eocdOffset ⟨before, eocd survivors size offset, true⟩).1 =
      .ok ⟨survivors, size, offset, false⟩ := by
  have hsize := h.plainSize hplain
  have hinFile := h.inFile
  obtain ⟨-, hoffset, hsurvivors⟩ := isZip64End_eq_false_iff.mp hplain
  have heocd : eocd survivors size offset =
      eocdMagic ++ (le 4 0 ++ (le 2 survivors ++ (le 2 survivors ++ (le 4 size ++
        (le 4 offset ++ []))))) ++ le 2 0 := by
    simp [eocd, eocdMagic, sizeField_eq, sizeNumber_of_le hsize, sizeNumber_of_le hoffset,
      Nat.min_eq_left hsurvivors]
  have hleft : (ByteCursor.mk before (eocd survivors size offset) true).left = eocdLen := by
    simp [ByteCursor.left, eocd, eocdLen]
  unfold uint32Max at hsize hoffset
  unfold int64Max at hinFile
  unfold readEocd
  rw [left_bind, hleft, heocd]
  refine congrArg Prod.fst ((reads_ensure (by decide)).next ((reads_bytes eocdMagic rfl).bind
    ((reads_number (by decide)).bind ((reads_ensure (by decide)).next
    ((reads_number (by omega)).bind ((reads_number (by omega)).bind
    ((reads_ensure (by simp)).next ((reads_number (by omega)).bind
    ((reads_number (by omega)).bind ((reads_ensure ?_).next ((reads_ensure ?_).next
    (reads_allocate ?_))))))))))) before (le 2 0))
  · simp
    omega
  · simpa using hinside
  · exact h.allocatable

/-- The bytes of the 64-bit end record. -/
def eocd64Record (survivors size offset : Nat) : Bytes :=
  eocd64Magic ++ (le 8 44 ++ ((le 2 45 ++ le 2 45) ++ (le 4 0 ++ (le 4 0 ++ (le 8 survivors ++
    (le 8 survivors ++ (le 8 size ++ le 8 offset)))))))

/-- The bytes of the locator. -/
def eocd64Locator (position : Nat) : Bytes :=
  eocd64LocMagic ++ (le 2 0 ++ (le 2 0 ++ le 8 position))

theorem eocd64_eq (survivors size offset : Nat) :
    eocd64 survivors size offset =
      eocd64Record survivors size offset ++ (eocd64Locator (offset + size) ++ le 4 1) := by
  have hzero : le 4 0 = le 2 0 ++ le 2 0 := by decide
  simp [eocd64, eocd64Record, eocd64Locator, eocd64Magic, eocd64LocMagic, hzero]

theorem length_eocd64Record (survivors size offset : Nat) :
    (eocd64Record survivors size offset).length = eocd64Len := by
  simp [eocd64Record, eocd64Magic, eocd64Len]

theorem length_eocd64Locator (position : Nat) : (eocd64Locator position).length = 16 := by
  simp [eocd64Locator, eocd64LocMagic]

/-- The 64-bit end record. -/
theorem reads_readEocd64Record {zip64 : Bool} {survivors size offset bufOffset eocdOffset : Nat}
    (h : EndFits zip64 survivors size offset) (hinside : offset + size ≤ bufOffset + eocdOffset) :
    Reads (readEocd64Record bufOffset eocdOffset 0 0) (eocd64Record survivors size offset)
      ⟨survivors, size, offset, true⟩ := by
  have hinFile := h.inFile
  have hallocatable := h.allocatable
  unfold int64Max at hinFile
  unfold sizeofZipEntry at hallocatable
  have hbound : int64Max = 0x7FFFFFFFFFFFFFFF := rfl
  have hoffset : le 8 size ++ le 8 offset = le 8 size ++ (le 8 offset ++ []) := by simp
  unfold readEocd64Record eocd64Record
  rw [hoffset]
  refine (reads_bytes eocd64Magic rfl).bind ((reads_ensure (by decide)).next
    ((reads_number (by decide)).bind ((reads_bytes _ (by simp)).bind
    ((reads_number (by decide)).bind ((reads_number (by decide)).bind
    ((reads_ensure (by decide)).next ((reads_number (by omega)).bind
    ((reads_number (by omega)).bind ((reads_ensure (by simp)).next
    ((reads_number (by omega)).bind ((reads_number (by omega)).bind
    (reads_isOk.next ((reads_ensure rfl).next ((reads_ensure ?_).next ((reads_ensure ?_).next
    (reads_allocate h.allocatable))))))))))))))))
  · simp
    omega
  · simp
    omega

theorem reads_readEocd64Locator {bufOffset locatorOffset position : Nat}
    (hposition : position ≤ int64Max) (hinside : position + eocd64Len ≤ locatorOffset + bufOffset) :
    Reads (readEocd64Locator bufOffset locatorOffset) (eocd64Locator position)
      (position, 0, 0) := by
  have hlast : le 2 0 ++ le 8 position = le 2 0 ++ (le 8 position ++ []) := by simp
  have hbound : int64Max = 0x7FFFFFFFFFFFFFFF := rfl
  unfold readEocd64Locator eocd64Locator
  rw [hlast]
  exact (reads_bytes eocd64LocMagic rfl).bind ((reads_number (by decide)).bind
    ((reads_number (by decide)).bind ((reads_number (by omega)).bind
    ((reads_ensure (by simpa using hposition)).next ((reads_ensure (by simpa using hinside)).next
    (reads_pure _))))))

/-! ## The end of a file -/

/-- The last twenty bytes look like the locator of a 64-bit end record. -/
def EndsLikeLocator (bytes : Bytes) : Prop :=
  eocd64LocLen ≤ bytes.length ∧
    (bytes.drop (bytes.length - eocd64LocLen)).take 4 = eocd64LocMagic

/-- A file that ends with what `_zip_cdir_write` puts behind the records, and where
the plain end record is not taken for one with a locator. -/
structure WrittenEnd (zip64 : Bool) (survivors size offset : Nat) (front file : Bytes) : Prop where
  file_eq : file = front ++ cdirEnd zip64 survivors size offset
  length_front : front.length = offset + size
  fits : EndFits zip64 survivors size offset
  noLocator : isZip64End zip64 survivors offset = false → ¬ EndsLikeLocator front

theorem length_eocd (survivors size offset : Nat) :
    (eocd survivors size offset).length = eocdLen := by
  simp [eocd, eocdLen]

theorem cdirEnd_eq (zip64 : Bool) (survivors size offset : Nat) :
    cdirEnd zip64 survivors size offset =
      (if isZip64End zip64 survivors offset then eocd64 survivors size offset else []) ++
        eocd survivors size offset :=
  rfl

namespace WrittenEnd

variable {zip64 : Bool} {survivors size offset : Nat} {front file : Bytes}

theorem eocdLen_le (h : WrittenEnd zip64 survivors size offset front file) :
    eocdLen ≤ file.length := by
  rw [h.file_eq, cdirEnd_eq, List.length_append, List.length_append, length_eocd]
  omega

/-- The end record is the last thing in the file. -/
theorem drop_eocd (h : WrittenEnd zip64 survivors size offset front file) :
    file.drop (file.length - eocdLen) = eocd survivors size offset := by
  rw [h.file_eq, cdirEnd_eq, ← List.append_assoc, List.length_append, length_eocd,
    Nat.add_sub_cancel, List.drop_left]

theorem length_of_zip64 (h : WrittenEnd zip64 survivors size offset front file)
    (hend : isZip64End zip64 survivors offset = true) : file.length = offset + size + 98 := by
  rw [h.file_eq, cdirEnd_eq, if_pos hend, List.length_append, List.length_append, length_eocd,
    eocd64_eq, List.length_append, List.length_append, length_eocd64Record, length_eocd64Locator,
    length_le, h.length_front]
  rfl

theorem length_of_plain (h : WrittenEnd zip64 survivors size offset front file)
    (hend : isZip64End zip64 survivors offset = false) : file.length = front.length + eocdLen := by
  rw [h.file_eq, cdirEnd_eq, hend, List.length_append, List.length_append, length_eocd]
  rfl

/-- The 64-bit end records stand behind the records. -/
theorem drop_eocd64 (h : WrittenEnd zip64 survivors size offset front file)
    (hend : isZip64End zip64 survivors offset = true) :
    file.drop (offset + size) = eocd64Record survivors size offset ++
      (eocd64Locator (offset + size) ++ (le 4 1 ++ eocd survivors size offset)) := by
  rw [h.file_eq, cdirEnd_eq, if_pos hend, ← h.length_front, List.drop_left, h.length_front,
    eocd64_eq]
  simp only [List.append_assoc]

theorem drop_locator (h : WrittenEnd zip64 survivors size offset front file)
    (hend : isZip64End zip64 survivors offset = true) :
    file.drop (offset + size + eocd64Len) =
      eocd64Locator (offset + size) ++ (le 4 1 ++ eocd survivors size offset) := by
  rw [← List.drop_drop, h.drop_eocd64 hend,
    ← length_eocd64Record survivors size offset, List.drop_left]

/-- The end record that was written is read. -/
theorem readEndRecord_eq (h : WrittenEnd zip64 survivors size offset front file)
    {bufOffset eocdOffset : Nat} (hbuffer : bufOffset + eocdOffset + eocdLen = file.length)
    (hroom : bufOffset = 0 ∨ 76 ≤ eocdOffset) :
    readEndRecord file bufOffset (.new (file.drop bufOffset)) eocdOffset =
      .ok ⟨survivors, size, offset, isZip64End zip64 survivors offset⟩ := by
  have hdata : (ByteCursor.new (file.drop bufOffset)).data = file.drop bufOffset := by
    simp [ByteCursor.new, ByteCursor.data]
  have heocdLen : eocdLen = 22 := rfl
  have hlocLen : eocd64LocLen = 20 := rfl
  have hrecordLen : eocd64Len = 56 := rfl
  unfold readEndRecord
  rw [hdata, List.drop_drop]
  cases hend : isZip64End zip64 survivors offset with
  | false =>
      have hlength := h.length_of_plain hend
      rw [if_neg]
      · rw [setOffset_drop (by omega),
          show bufOffset + eocdOffset = file.length - eocdLen by omega, h.drop_eocd]
        refine readEocd_eocd h.fits hend ?_ _
        rw [← h.length_front]
        omega
      · rintro ⟨hle, hmagic⟩
        apply h.noLocator hend
        refine ⟨by omega, ?_⟩
        rw [h.file_eq, List.drop_append_of_le_length (by omega),
          List.take_append_of_le_length (by rw [List.length_drop]; omega)] at hmagic
        rw [← hmagic]
        congr 2
        omega
  | true =>
      have hlength := h.length_of_zip64 hend
      have hlocator : bufOffset + (eocdOffset - eocd64LocLen) = offset + size + eocd64Len := by
        omega
      have hmagic : (file.drop (offset + size + eocd64Len)).take 4 = eocd64LocMagic := by
        rw [h.drop_locator hend]
        rfl
      rw [if_pos ⟨by omega, by rw [hlocator, hmagic]⟩]
      unfold readEocd64
      rw [setOffset_drop (by omega), hlocator, h.drop_locator hend]
      rw [reads_readEocd64Locator (by have := h.fits.inFile; omega) (by omega)]
      dsimp only
      rw [if_pos ⟨by omega, by rw [hdata, List.length_drop]; omega⟩, setOffset_drop (by omega),
        Nat.add_sub_cancel' (by omega), h.drop_eocd64 hend,
        reads_readEocd64Record h.fits (by omega)]

theorem drop_commentLen (h : WrittenEnd zip64 survivors size offset front file) :
    file.drop (file.length - eocdLen + 20) = le 2 0 := by
  have heocd : eocd survivors size offset =
      ([0x50, 0x4B, 5, 6] ++ le 4 0 ++ le 2 (min survivors 0xFFFF) ++
        le 2 (min survivors 0xFFFF) ++ sizeField size ++ sizeField offset) ++ le 2 0 := rfl
  rw [← List.drop_drop, h.drop_eocd, heocd, List.drop_left' (by simp)]

/-- The directory in front of the end record is read. -/
theorem readCdir_eq (h : WrittenEnd zip64 survivors size offset front file)
    (hfile : file.length ≤ int64Max) {calendar : Calendar} {rs : List RawRecord}
    {des : List ReadDirent} (hrs : List.Forall₂ (RawRecord.ReadsAs calendar) rs des)
    (hcount : des.length = survivors) {rest : Bytes}
    (hrow : file.drop offset = recordRow rs ++ rest) (hsize : (recordRow rs).length = size)
    {bufOffset eocdOffset : Nat} (hbuffer : bufOffset + eocdOffset + eocdLen = file.length)
    (hroom : bufOffset = 0 ∨ 76 ≤ eocdOffset) :
    readCdir calendar file bufOffset (.new (file.drop bufOffset)) eocdOffset =
      .ok ⟨des, size, offset, none, isZip64End zip64 survivors offset⟩ := by
  have heocdLen : eocdLen = 22 := rfl
  have hposition : bufOffset + eocdOffset = file.length - eocdLen := by omega
  have hfront : offset + size ≤ file.length - eocdLen := by
    rw [← h.length_front, h.file_eq, cdirEnd_eq, List.length_append, List.length_append,
      length_eocd]
    omega
  have heocd : (ByteCursor.new (file.drop bufOffset)).setOffset eocdOffset =
      ⟨(file.drop bufOffset).take eocdOffset, eocd survivors size offset, true⟩ := by
    rw [setOffset_drop (by omega), hposition, h.drop_eocd]
  have hcomment : (ByteCursor.new (file.drop bufOffset)).setOffset (eocdOffset + 20) =
      ⟨(file.drop bufOffset).take (eocdOffset + 20), le 2 0, true⟩ := by
    rw [setOffset_drop (by omega), ← Nat.add_assoc, hposition, h.drop_commentLen]
  rw [readCdir_eq_ok_iff]
  refine ⟨?_, ?_, _, h.readEndRecord_eq hbuffer hroom, by dsimp only; omega, ?_, ?_, rfl, rfl, rfl⟩
  · rw [heocd, ByteCursor.left, length_eocd]
    simp
  · rw [heocd]
    simp [ByteCursor.get, eocd, eocdMagic]
  · have hzero := ByteCursor.getLE_append ((file.drop bufOffset).take (eocdOffset + 20)) [] 2 0
    rw [List.append_nil] at hzero
    rw [hcomment, hzero]
    rfl
  · rw [readDirectory_eq_ok_iff hfile (by dsimp only; omega)]
    exact ⟨rs, rest, hrow, hsize, hrs, Or.inl hcount⟩

end WrittenEnd

/-! ## The search in a written archive -/

/-- The positions of the end records in front of the last one that can be. -/
def rivalPositions (data : Bytes) (start : Nat) : List Nat :=
  (List.range' start (data.length - eocdLen - start)).filter (isEndRecordAt data)

theorem endRecordPositions_eq {data : Bytes} {start : Nat} (hroom : start + eocdLen ≤ data.length)
    (hlast : isEndRecordAt data (data.length - eocdLen) = true) :
    endRecordPositions data start = rivalPositions data start ++ [data.length - eocdLen] := by
  have hcount : data.length - (eocdLen - 1) - start = data.length - eocdLen - start + 1 := by
    unfold eocdLen at hroom ⊢
    omega
  unfold endRecordPositions rivalPositions
  rw [hcount, List.range'_1_concat, List.filter_append]
  congr 1
  have hend : start + (data.length - eocdLen - start) = data.length - eocdLen := by omega
  rw [hend]
  simp [hlast]

/-- The directories that can be read from end records in front of the last one. -/
def rivalDirs (calendar : Calendar) (file : Bytes) : List Cdir :=
  let bufOffset := bufferOffset file
  let buffer := ByteCursor.new (file.drop bufOffset)
  (rivalPositions buffer.data (searchStart file)).filterMap fun eocdOffset =>
    (readCdir calendar file bufOffset buffer eocdOffset).toOption

theorem length_drop_bufferOffset (file : Bytes) :
    (file.drop (bufferOffset file)).length = min file.length cdBufSize := by
  rw [List.length_drop, bufferOffset]
  omega

theorem readableDirs_of_written {zip64 : Bool} {survivors size offset : Nat} {front file : Bytes}
    (h : WrittenEnd zip64 survivors size offset front file) {calendar : Calendar} {cd : Cdir}
    (hcd : readCdir calendar file (bufferOffset file) (.new (file.drop (bufferOffset file)))
      (min file.length cdBufSize - eocdLen) = .ok cd) :
    readableDirs calendar file = rivalDirs calendar file ++ [cd] := by
  have hle := h.eocdLen_le
  have hdata : (ByteCursor.new (file.drop (bufferOffset file))).data =
      file.drop (bufferOffset file) := by
    simp [ByteCursor.new, ByteCursor.data]
  have hlength := length_drop_bufferOffset file
  have hsize : cdBufSize = 65578 := rfl
  have heocdLen : eocdLen = 22 := rfl
  have hstart : searchStart file + eocdLen ≤ min file.length cdBufSize := by
    unfold searchStart eocd64LocLen
    split <;> omega
  have hlast : isEndRecordAt (file.drop (bufferOffset file))
      (min file.length cdBufSize - eocdLen) = true := by
    have hposition : bufferOffset file + (min file.length cdBufSize - eocdLen) =
        file.length - eocdLen := by
      unfold bufferOffset
      omega
    unfold isEndRecordAt
    rw [List.drop_drop, hposition, h.drop_eocd]
    simp [eocd, eocdMagic]
  unfold readableDirs rivalDirs
  dsimp only
  rw [hdata, endRecordPositions_eq (by rw [hlength]; exact hstart) (by rw [hlength]; exact hlast),
    List.filterMap_append, hlength]
  simp [hcd, Except.toOption]

/-- The choice of a directory that spans more than all in front of it. -/
theorem chooseDir_concat {span : Cdir → Int} {rivals : List Cdir} {cd : Cdir}
    (hspan : ∀ rival ∈ rivals, span rival < span cd) (hpos : ∀ rival ∈ rivals, -1 ≤ span rival) :
    chooseDir span (rivals ++ [cd]) = some cd := by
  cases rivals with
  | nil => rfl
  | cons rival rest =>
      have hcd : 0 ≤ span cd := by
        have := hspan rival List.mem_cons_self
        have := hpos rival List.mem_cons_self
        omega
      rw [chooseDir_of_two_le (by simp), firstWidest_concat]
      cases hwidest : firstWidest span (rival :: rest) with
      | none => simp [firstWidest] at hwidest
      | some best =>
          have hbest := hspan best (firstWidest_mem hwidest)
          simp [hbest, hcd, Option.filter]

theorem neg_one_le_span (calendar : Calendar) (file : Bytes) (cd : Cdir) :
    -1 ≤ cd.span calendar file := by
  unfold Cdir.span spanCode
  split <;> omega

/-! ## Whole archives -/

/-- The end records of an archive are 64-bit ones. -/
def isZip64Archive (des : List Dirent) (offset : Nat) : Bool :=
  isZip64End (des.any fun de => de.needsZip64 true) des.length offset

/-- The directory of an archive as it is read. -/
def writtenCdir (calendar : Calendar) (des : List Dirent) (offset : Nat) : Cdir where
  entries := des.map (Dirent.readBack calendar)
  size := (recordBytes des).length
  offset := offset
  comment := none
  isZip64 := isZip64Archive des offset

/-- What it takes for the directory behind `data` to be read back: the entries fit
their records and none is misread; without 64-bit end records the size of the
directory fits the plain one, and what stands in front of it is no locator. -/
structure ReadableArchive (data : Bytes) (des : List Dirent) : Prop where
  writable : ∀ de ∈ des, de.Writable
  notMisread : ∀ de ∈ des, ¬ de.Misread
  length : (data ++ cdirBytes des data.length).length ≤ int64Max
  size : isZip64Archive des data.length = false → (recordBytes des).length ≤ uint32Max
  noLocator : isZip64Archive des data.length = false → ¬ EndsLikeLocator (data ++ recordBytes des)

theorem length_cdirBytes (des : List Dirent) (offset : Nat) :
    (cdirBytes des offset).length =
      (recordBytes des).length + if isZip64Archive des offset then 98 else eocdLen := by
  unfold cdirBytes isZip64Archive
  rw [List.length_append, cdirEnd_eq, List.length_append, length_eocd]
  split
  · rw [eocd64_eq]
    simp [length_eocd64Record, length_eocd64Locator, eocd64Len, eocdLen]
  · simp

/-- What stands in front of a directory is determined by the file. -/
theorem append_cdirBytes_inj {des : List Dirent} {data data' : Bytes}
    (h : data ++ cdirBytes des data.length = data' ++ cdirBytes des data'.length) :
    data = data' := by
  have hlengths := congrArg List.length h
  rw [List.length_append, List.length_append, length_cdirBytes, length_cdirBytes] at hlengths
  -- a directory that stands later is no shorter
  have hmono : ∀ {n n' : Nat}, n ≤ n' → (if isZip64Archive des n then 98 else eocdLen) ≤
      if isZip64Archive des n' then 98 else eocdLen := by
    intro n n' hle
    have hlater : isZip64Archive des n = true → isZip64Archive des n' = true := by
      simp only [isZip64Archive, isZip64End, Bool.or_eq_true, decide_eq_true_eq]
      rintro ((hentry | hoffset) | hcount)
      · exact Or.inl (Or.inl hentry)
      · exact Or.inl (Or.inr (by omega))
      · exact Or.inr hcount
    by_cases hearlier : isZip64Archive des n = true
    · rw [if_pos hearlier, if_pos (hlater hearlier)]
    · rw [if_neg hearlier]
      split <;> simp [eocdLen]
  have hsame : data.length = data'.length := by
    rcases Nat.le_total data.length data'.length with hle | hle
    · have := hmono hle
      omega
    · have := hmono hle
      omega
  exact List.append_inj_left h hsame

theorem recordBytes_eq (des : List Dirent) :
    recordBytes des = recordRow (des.map Dirent.record) := by
  unfold recordBytes recordRow
  rw [List.flatMap_map]
  simp only [bytes_record]

theorem readsAs_record (calendar : Calendar) {des : List Dirent}
    (hwritable : ∀ de ∈ des, de.Writable) (hnotMisread : ∀ de ∈ des, ¬ de.Misread) :
    List.Forall₂ (RawRecord.ReadsAs calendar) (des.map Dirent.record)
      (des.map (Dirent.readBack calendar)) := by
  rw [List.forall₂_map_left_iff, List.forall₂_map_right_iff, List.forall₂_same]
  intro de hde
  refine ⟨(hwritable de hde).valid_record, ?_⟩
  rw [read_record calendar (hwritable de hde), if_neg (hnotMisread de hde)]

namespace ReadableArchive

variable {data : Bytes} {des : List Dirent}

theorem writtenEnd (h : ReadableArchive data des) :
    WrittenEnd (des.any fun de => de.needsZip64 true) des.length (recordBytes des).length
      data.length (data ++ recordBytes des) (data ++ cdirBytes des data.length) where
  file_eq := by
    rw [cdirBytes, List.append_assoc]
  length_front := List.length_append
  fits := by
    have hrecords := length_recordRow_le
      (readsAs_record ⟨fun _ => 0, fun _ => ⟨0, 0, 0, 0, 0, 0⟩⟩ h.writable h.notMisread)
    have hlength := h.length
    rw [← recordBytes_eq, List.length_map] at hrecords
    rw [cdirBytes, List.length_append, List.length_append] at hlength
    refine ⟨?_, by omega, h.size⟩
    unfold cdEntrySize at hrecords
    unfold int64Max at hlength
    unfold sizeofZipEntry
    omega
  noLocator := h.noLocator

/-- The directory that was written is among those that can be read, the last of them. -/
theorem readableDirs_eq (h : ReadableArchive data des) (calendar : Calendar) :
    readableDirs calendar (data ++ cdirBytes des data.length) =
      rivalDirs calendar (data ++ cdirBytes des data.length) ++
        [writtenCdir calendar des data.length] := by
  have hend := h.writtenEnd
  have hle := hend.eocdLen_le
  have hbuf : cdBufSize = 65578 := rfl
  have heocdLen : eocdLen = 22 := rfl
  apply readableDirs_of_written hend
  have hrow : (data ++ cdirBytes des data.length).drop data.length =
      recordRow (des.map Dirent.record) ++ cdirEnd (des.any fun de => de.needsZip64 true)
        des.length (recordBytes des).length data.length := by
    rw [List.drop_left, cdirBytes, ← recordBytes_eq]
  refine hend.readCdir_eq h.length (readsAs_record calendar h.writable h.notMisread)
    (List.length_map _) hrow ?_ ?_ ?_
  · rw [← recordBytes_eq]
  · unfold bufferOffset
    omega
  · unfold bufferOffset
    omega

end ReadableArchive

/-- **Archives, written and read back**: where the entries can be read and every
other directory that can be read from the last part of the file spans less than
the written one, opening the file gives the entries that were written. -/
theorem parseArchive_written (calendar : Calendar) {data : Bytes} {des : List Dirent}
    (h : ReadableArchive data des)
    (hrivals : ∀ rival ∈ rivalDirs calendar (data ++ cdirBytes des data.length),
      rival.span calendar (data ++ cdirBytes des data.length) <
        (writtenCdir calendar des data.length).span calendar
          (data ++ cdirBytes des data.length)) :
    parseArchive calendar (data ++ cdirBytes des data.length) =
      some (des.map fun de => (de.readBack calendar).dirent calendar) := by
  have hchoice := map_bare_findCentralDir calendar (data ++ cdirBytes des data.length)
  rw [h.readableDirs_eq calendar, List.map_append, List.map_singleton, chooseDir_concat] at hchoice
  · rw [parseArchive_of_bare hchoice]
    simp [Cdir.bare, writtenCdir]
  · intro rival hrival
    obtain ⟨rival, hmem, rfl⟩ := List.mem_map.mp hrival
    rw [span_bare, span_bare]
    exact hrivals rival hmem
  · exact fun rival _ => neg_one_le_span calendar _ rival

end Archive
end AllvmTools
