import AllvmTools.Archive.CentralDirectorySearch
import AllvmTools.Archive.DirectoryRecords

/-!
# What an archive that opens consists of

The end records that `_zip_read_eocd` and `_zip_read_eocd64` accept, byte by byte,
the directories that `_zip_find_central_dir` can choose from, and with them the
files that are opened and the files that are refused.

* `mem_readableDirs_iff` — the directories that can be read.
-/

namespace AllvmTools
namespace Archive

open Library Library.Text Library.Files Library.LittleEndian
open Library.Leaving.Program Library.Reader

/-! ## Plain end records -/

/-- A plain end record, up to the length of the comment. -/
def plainBytes (disks i nentry size offset : Nat) : Bytes :=
  eocdMagic ++ (le 4 disks ++ (le 2 i ++ (le 2 nentry ++ (le 4 size ++ le 4 offset))))

/-- The plain end record at the position says this of the directory. -/
structure EndRecord.PlainAt (file : Bytes) (position : Nat) (r : EndRecord) : Prop where
  isZip64 : r.isZip64 = false
  nentry : r.nentry < 256 ^ 2
  size : r.size < 256 ^ 4
  offset : r.offset < 256 ^ 4
  bytes : plainBytes 0 r.nentry r.nentry r.size r.offset <+: file.drop position
  inside : r.offset + r.size ≤ position

theorem allocate_eq_ok_iff {r r' : EndRecord} {c : ByteCursor} (h : r.nentry < 2 ^ 64) :
    (r.allocate c).1 = .ok r' ↔ r.nentry ≤ (2 ^ 64 - 1) / sizeofZipEntry ∧ r = r' := by
  have hgrow : cdirGrow 0 r.nentry =
      if r.nentry ≤ (2 ^ 64 - 1) / sizeofZipEntry then .ok r.nentry else .error .memory := by
    unfold cdirGrow sizeofZipEntry
    by_cases hzero : r.nentry = 0
    · simp [hzero]
    · rw [if_neg hzero]
      dsimp only
      rw [Nat.zero_add, Nat.mod_eq_of_lt h]
      split
      · rw [if_neg (by omega)]
      · rw [if_pos (by omega)]
  unfold EndRecord.allocate
  rw [hgrow]
  by_cases hle : r.nentry ≤ (2 ^ 64 - 1) / sizeofZipEntry
  · rw [if_pos hle]
    change (Except.ok r : Except ZipError EndRecord) = .ok r' ↔ _
    rw [Except.ok.injEq, and_iff_right hle]
  · rw [if_neg hle]
    change (Except.error .memory : Except ZipError EndRecord) = .ok r' ↔ _
    rw [iff_false_intro hle, false_and, iff_false]
    exact fun h => by cases h

/-- The plain end record, read number by number. -/
theorem readEocd_eq_ok_iff {bufOffset eocdOffset disks i nentry size offset : Nat}
    {before rest : Bytes} (hdisks : disks < 256 ^ 4) (hi : i < 256 ^ 2) (hnentry : nentry < 256 ^ 2)
    (hsize : size < 256 ^ 4) (hoffset : offset < 256 ^ 4) (hrest : 2 ≤ rest.length)
    {r : EndRecord} :
    (readEocd bufOffset eocdOffset
        ⟨before, plainBytes disks i nentry size offset ++ rest, true⟩).1 = .ok r ↔
      disks = 0 ∧ nentry = i ∧ offset + size ≤ bufOffset + eocdOffset ∧
        ⟨nentry, size, offset, false⟩ = r := by
  have hleft : eocdLen ≤
      (ByteCursor.mk before (plainBytes disks i nentry size offset ++ rest) true).left := by
    simp [ByteCursor.left, plainBytes, eocdMagic, eocdLen]
    omega
  unfold readEocd
  rw [left_bind, ensure_bind_eq_ok_iff]
  unfold plainBytes
  simp only [List.append_assoc]
  rw [(reads_bytes eocdMagic (show eocdMagic.length = 4 from rfl)).bind_eq,
    (reads_number hdisks).bind_eq, ensure_bind_eq_ok_iff,
    (reads_number hi).bind_eq, (reads_number hnentry).bind_eq, ensure_bind_eq_ok_iff,
    (reads_number hsize).bind_eq, (reads_number hoffset).bind_eq, ensure_bind_eq_ok_iff,
    ensure_bind_eq_ok_iff, allocate_eq_ok_iff (by dsimp only; omega)]
  unfold plainBytes at hleft
  simp only [List.append_assoc] at hleft
  have hallocatable : nentry ≤ (2 ^ 64 - 1) / sizeofZipEntry := by
    unfold sizeofZipEntry
    omega
  simp only [decide_eq_true_eq, hleft, hallocatable, true_and]
  rw [Nat.mod_eq_of_lt (by omega), and_iff_right (Nat.le_add_right offset size)]

/-- Twenty-two bytes from the magic on are a plain end record, up to its comment. -/
theorem exists_plainBytes {bytes : Bytes} (hlength : eocdLen ≤ bytes.length)
    (hmagic : bytes.take 4 = eocdMagic) :
    ∃ disks i nentry size offset rest, disks < 256 ^ 4 ∧ i < 256 ^ 2 ∧ nentry < 256 ^ 2 ∧
      size < 256 ^ 4 ∧ offset < 256 ^ 4 ∧ 2 ≤ rest.length ∧
      bytes = plainBytes disks i nentry size offset ++ rest := by
  unfold eocdLen at hlength
  obtain ⟨disks, rest₁, hdisks, h₁⟩ : ∃ n rest, n < 256 ^ 4 ∧ bytes.drop 4 = le 4 n ++ rest :=
    exists_le_append (by rw [List.length_drop]; omega)
  have hlength₁ := congrArg List.length h₁
  simp only [List.length_drop, List.length_append, length_le] at hlength₁
  obtain ⟨i, rest₂, hi, rfl⟩ : ∃ n rest, n < 256 ^ 2 ∧ rest₁ = le 2 n ++ rest :=
    exists_le_append (by omega)
  rw [List.length_append, length_le] at hlength₁
  obtain ⟨nentry, rest₃, hnentry, rfl⟩ : ∃ n rest, n < 256 ^ 2 ∧ rest₂ = le 2 n ++ rest :=
    exists_le_append (by omega)
  rw [List.length_append, length_le] at hlength₁
  obtain ⟨size, rest₄, hsize, rfl⟩ : ∃ n rest, n < 256 ^ 4 ∧ rest₃ = le 4 n ++ rest :=
    exists_le_append (by omega)
  rw [List.length_append, length_le] at hlength₁
  obtain ⟨offset, rest, hoffset, rfl⟩ : ∃ n rest, n < 256 ^ 4 ∧ rest₄ = le 4 n ++ rest :=
    exists_le_append (by omega)
  rw [List.length_append, length_le] at hlength₁
  refine ⟨disks, i, nentry, size, offset, rest, hdisks, hi, hnentry, hsize, hoffset, by omega, ?_⟩
  rw [← List.take_append_drop 4 bytes, hmagic, h₁]
  simp [plainBytes]

theorem readEocd_eq_ok_iff_plainAt {file : Bytes} {bufOffset eocdOffset : Nat}
    (hroom : bufOffset + eocdOffset + eocdLen ≤ file.length)
    (hmagic : (file.drop (bufOffset + eocdOffset)).take 4 = eocdMagic) {r : EndRecord} :
    (readEocd bufOffset eocdOffset
        ((ByteCursor.new (file.drop bufOffset)).setOffset eocdOffset)).1 = .ok r ↔
      r.PlainAt file (bufOffset + eocdOffset) := by
  rw [setOffset_drop (by omega)]
  constructor
  · intro h
    obtain ⟨disks, i, nentry, size, offset, rest, hdisks, hi, hnentry, hsize, hoffset, hrest,
      hbytes⟩ := exists_plainBytes (by rw [List.length_drop]; omega) hmagic
    rw [hbytes, readEocd_eq_ok_iff hdisks hi hnentry hsize hoffset hrest] at h
    obtain ⟨rfl, rfl, hinside, rfl⟩ := h
    exact ⟨rfl, hnentry, hsize, hoffset, ⟨rest, hbytes.symm⟩, hinside⟩
  · intro h
    obtain ⟨rest, hbytes⟩ := h.bytes
    have hlength := congrArg List.length hbytes
    simp only [plainBytes, List.length_append, List.length_drop, length_le] at hlength
    have hmagicLength : eocdMagic.length = 4 := rfl
    unfold eocdLen at hroom
    have hisZip64 := h.isZip64
    rw [← hbytes, readEocd_eq_ok_iff (by decide) h.nentry h.nentry h.size h.offset (by omega)]
    refine ⟨rfl, rfl, h.inside, ?_⟩
    rw [← hisZip64]

/-! ## 64-bit end records -/

/-- A locator, up to the number of disks. -/
def locatorBytes (disks disk position : Nat) : Bytes :=
  eocd64LocMagic ++ (le 2 disks ++ (le 2 disk ++ le 8 position))

/-- The locator, read number by number. -/
theorem readEocd64Locator_eq_ok_iff {bufOffset locatorOffset disks disk position : Nat}
    (hdisks : disks < 256 ^ 2) (hdisk : disk < 256 ^ 2) (hposition : position < 256 ^ 8)
    {before rest : Bytes} {found : Nat × Nat × Nat} :
    (readEocd64Locator bufOffset locatorOffset
        ⟨before, locatorBytes disks disk position ++ rest, true⟩).1 = .ok found ↔
      position ≤ int64Max ∧ position + eocd64Len ≤ locatorOffset + bufOffset ∧
        (position, disks, disk) = found := by
  unfold readEocd64Locator locatorBytes
  simp only [List.append_assoc]
  rw [(reads_bytes eocd64LocMagic (show eocd64LocMagic.length = 4 from rfl)).bind_eq,
    (reads_number hdisks).bind_eq, (reads_number hdisk).bind_eq,
    (reads_number hposition).bind_eq, ensure_bind_eq_ok_iff, ensure_bind_eq_ok_iff,
    decide_eq_true_iff, decide_eq_true_iff]
  change _ ∧ _ ∧ (Except.ok (position, disks, disk) :
    Except ZipError (Nat × Nat × Nat)) = .ok found ↔ _
  rw [Except.ok.injEq]

/-- Enough bytes from the magic on are a locator. -/
theorem exists_locatorBytes {bytes : Bytes} (hlength : eocd64LocLen ≤ bytes.length)
    (hmagic : bytes.take 4 = eocd64LocMagic) :
    ∃ disks disk position rest, disks < 256 ^ 2 ∧ disk < 256 ^ 2 ∧ position < 256 ^ 8 ∧
      bytes = locatorBytes disks disk position ++ rest := by
  unfold eocd64LocLen at hlength
  obtain ⟨disks, rest₁, hdisks, h₁⟩ : ∃ n rest, n < 256 ^ 2 ∧ bytes.drop 4 = le 2 n ++ rest :=
    exists_le_append (by rw [List.length_drop]; omega)
  have hlength₁ := congrArg List.length h₁
  simp only [List.length_drop, List.length_append, length_le] at hlength₁
  obtain ⟨disk, rest₂, hdisk, rfl⟩ : ∃ n rest, n < 256 ^ 2 ∧ rest₁ = le 2 n ++ rest :=
    exists_le_append (by omega)
  rw [List.length_append, length_le] at hlength₁
  obtain ⟨position, rest, hposition, rfl⟩ : ∃ n rest, n < 256 ^ 8 ∧ rest₂ = le 8 n ++ rest :=
    exists_le_append (by omega)
  refine ⟨disks, disk, position, rest, hdisks, hdisk, hposition, ?_⟩
  rw [← List.take_append_drop 4 bytes, hmagic, h₁]
  simp [locatorBytes]

/-- What a 64-bit end record and its locator hold besides what is said of the
directory. -/
structure Eocd64Frame where
  locatorDisks : Nat
  locatorDisk : Nat
  position : Nat
  magic : Bytes
  recordSize : Nat
  versions : Bytes
  numDisks : Nat
  eocdDisk : Nat
deriving DecidableEq, Repr

namespace Eocd64Frame

/-- The numbers fit their fields. -/
structure Valid (f : Eocd64Frame) : Prop where
  locatorDisks : f.locatorDisks < 256 ^ 2
  locatorDisk : f.locatorDisk < 256 ^ 2
  position : f.position < 256 ^ 8
  magic : f.magic.length = 4
  recordSize : f.recordSize < 256 ^ 8
  versions : f.versions.length = 4
  numDisks : f.numDisks < 256 ^ 4
  eocdDisk : f.eocdDisk < 256 ^ 4

/-- A 64-bit end record. -/
def recordBytes (f : Eocd64Frame) (nentry i size offset : Nat) : Bytes :=
  f.magic ++ (le 8 f.recordSize ++ (f.versions ++ (le 4 f.numDisks ++ (le 4 f.eocdDisk ++
    (le 8 nentry ++ (le 8 i ++ (le 8 size ++ le 8 offset)))))))

/-- The number of disks: a locator that cannot hold it leaves it to the record. -/
def disks (f : Eocd64Frame) : Nat :=
  if f.locatorDisks = 0xFFFF then f.numDisks else f.locatorDisks

/-- The disk of the end record. -/
def disk (f : Eocd64Frame) : Nat :=
  if f.locatorDisk = 0xFFFF then f.eocdDisk else f.locatorDisk

theorem Valid.length_recordBytes {f : Eocd64Frame} (h : f.Valid) (nentry i size offset : Nat) :
    (f.recordBytes nentry i size offset).length = eocd64Len := by
  simp [recordBytes, h.magic, h.versions, eocd64Len]

/-- The record, read number by number. -/
theorem Valid.readEocd64Record_eq_ok_iff {f : Eocd64Frame} (h : f.Valid)
    {bufOffset eocdOffset nentry i size offset : Nat} (hnentry : nentry < 256 ^ 8)
    (hi : i < 256 ^ 8) (hsize : size < 256 ^ 8) (hoffset : offset < 256 ^ 8)
    {before rest : Bytes} {r : EndRecord} :
    (readEocd64Record bufOffset eocdOffset f.locatorDisks f.locatorDisk
        ⟨before, f.recordBytes nentry i size offset ++ rest, true⟩).1 = .ok r ↔
      f.magic = eocd64Magic ∧ f.disks = 0 ∧ f.disk = 0 ∧ nentry = i ∧ offset ≤ int64Max ∧
        offset + size < 2 ^ 64 ∧ offset + size ≤ bufOffset + eocdOffset ∧
        nentry ≤ (2 ^ 64 - 1) / sizeofZipEntry ∧ ⟨nentry, size, offset, true⟩ = r := by
  unfold readEocd64Record recordBytes
  simp only [List.append_assoc]
  rw [(reads_bytes f.magic h.magic).bind_eq, ensure_bind_eq_ok_iff,
    (reads_number h.recordSize).bind_eq, (reads_bytes f.versions h.versions).bind_eq,
    (reads_number h.numDisks).bind_eq, (reads_number h.eocdDisk).bind_eq, ensure_bind_eq_ok_iff,
    (reads_number hnentry).bind_eq, (reads_number hi).bind_eq, ensure_bind_eq_ok_iff,
    (reads_number hsize).bind_eq, (reads_number hoffset).bind_eq, isOk_bind,
    ensure_bind_eq_ok_iff, ensure_bind_eq_ok_iff, ensure_bind_eq_ok_iff,
    allocate_eq_ok_iff (by dsimp only; omega)]
  have hwrap : offset ≤ (offset + size) % 2 ^ 64 ↔ offset + size < 2 ^ 64 := by omega
  simp only [decide_eq_true_eq, Option.some.injEq, true_and, hwrap, and_assoc]
  constructor
  · rintro ⟨hmagic, hdisks, hdisk, hi, hrange, hsum, hinside, hrest⟩
    rw [Nat.mod_eq_of_lt hsum] at hinside
    exact ⟨hmagic, hdisks, hdisk, hi, hrange, hsum, hinside, hrest⟩
  · rintro ⟨hmagic, hdisks, hdisk, hi, hrange, hsum, hinside, hrest⟩
    rw [Nat.mod_eq_of_lt hsum]
    exact ⟨hmagic, hdisks, hdisk, hi, hrange, hsum, hinside, hrest⟩

end Eocd64Frame

/-- The 64-bit end record that the locator in front of the position leads to says
this of the directory.  The bound on the end of the directory counts the start of
the buffer twice, as `_zip_read_eocd64` does. -/
structure EndRecord.Zip64At (file : Bytes) (position : Nat) (r : EndRecord) (f : Eocd64Frame) :
    Prop where
  isZip64 : r.isZip64 = true
  valid : f.Valid
  locator : locatorBytes f.locatorDisks f.locatorDisk f.position <+:
    file.drop (position - eocd64LocLen)
  record : f.recordBytes r.nentry r.nentry r.size r.offset <+: file.drop f.position
  magic : f.magic = eocd64Magic
  disks : f.disks = 0
  disk : f.disk = 0
  behind : f.position + eocd64Len ≤ position - eocd64LocLen
  nentry : r.nentry ≤ (2 ^ 64 - 1) / sizeofZipEntry
  offset : r.offset ≤ int64Max
  sum : r.offset + r.size < 2 ^ 64
  inside : r.offset + r.size ≤ bufferOffset file + f.position

/-- Fifty-six bytes are a 64-bit end record behind any locator. -/
theorem exists_recordBytes {disks disk position : Nat} (hdisks : disks < 256 ^ 2)
    (hdisk : disk < 256 ^ 2) (hposition : position < 256 ^ 8) {bytes : Bytes}
    (hlength : eocd64Len ≤ bytes.length) :
    ∃ f : Eocd64Frame, f.Valid ∧ f.locatorDisks = disks ∧ f.locatorDisk = disk ∧
      f.position = position ∧ ∃ nentry i size offset rest, nentry < 256 ^ 8 ∧ i < 256 ^ 8 ∧
        size < 256 ^ 8 ∧ offset < 256 ^ 8 ∧ bytes = f.recordBytes nentry i size offset ++ rest := by
  unfold eocd64Len at hlength
  obtain ⟨recordSize, rest₁, hrecordSize, h₁⟩ :
      ∃ n rest, n < 256 ^ 8 ∧ bytes.drop 4 = le 8 n ++ rest :=
    exists_le_append (by rw [List.length_drop]; omega)
  have hlength₁ := congrArg List.length h₁
  simp only [List.length_drop, List.length_append, length_le] at hlength₁
  obtain ⟨numDisks, rest₂, hnumDisks, h₂⟩ :
      ∃ n rest, n < 256 ^ 4 ∧ rest₁.drop 4 = le 4 n ++ rest :=
    exists_le_append (by rw [List.length_drop]; omega)
  have hlength₂ := congrArg List.length h₂
  simp only [List.length_drop, List.length_append, length_le] at hlength₂
  obtain ⟨eocdDisk, rest₃, heocdDisk, rfl⟩ : ∃ n rest, n < 256 ^ 4 ∧ rest₂ = le 4 n ++ rest :=
    exists_le_append (by omega)
  rw [List.length_append, length_le] at hlength₂
  obtain ⟨nentry, rest₄, hnentry, rfl⟩ : ∃ n rest, n < 256 ^ 8 ∧ rest₃ = le 8 n ++ rest :=
    exists_le_append (by omega)
  rw [List.length_append, length_le] at hlength₂
  obtain ⟨i, rest₅, hi, rfl⟩ : ∃ n rest, n < 256 ^ 8 ∧ rest₄ = le 8 n ++ rest :=
    exists_le_append (by omega)
  rw [List.length_append, length_le] at hlength₂
  obtain ⟨size, rest₆, hsize, rfl⟩ : ∃ n rest, n < 256 ^ 8 ∧ rest₅ = le 8 n ++ rest :=
    exists_le_append (by omega)
  rw [List.length_append, length_le] at hlength₂
  obtain ⟨offset, rest, hoffset, rfl⟩ : ∃ n rest, n < 256 ^ 8 ∧ rest₆ = le 8 n ++ rest :=
    exists_le_append (by omega)
  refine ⟨⟨disks, disk, position, bytes.take 4, recordSize, rest₁.take 4, numDisks, eocdDisk⟩,
    ⟨hdisks, hdisk, hposition, List.length_take_of_le (by omega), hrecordSize,
      List.length_take_of_le (by omega), hnumDisks, heocdDisk⟩, rfl, rfl, rfl, nentry, i, size,
    offset, rest, hnentry, hi, hsize, hoffset, ?_⟩
  unfold Eocd64Frame.recordBytes
  simp only [List.append_assoc]
  rw [← h₂, List.take_append_drop, ← h₁, List.take_append_drop]

/-- The 64-bit end record is read where the locator says, from the buffer and from
the file alike. -/
theorem readEocd64_eq {file : Bytes} {bufOffset locatorOffset : Nat}
    (hroom : bufOffset + locatorOffset + eocd64LocLen ≤ file.length) {f : Eocd64Frame}
    (hvalid : f.Valid) {rest : Bytes} (hlocator : file.drop (bufOffset + locatorOffset) =
      locatorBytes f.locatorDisks f.locatorDisk f.position ++ rest)
    (hposition : f.position ≤ int64Max)
    (hbehind : f.position + eocd64Len ≤ bufOffset + locatorOffset)
    {nentry i size offset : Nat} {rest' : Bytes}
    (hrecord : file.drop f.position = f.recordBytes nentry i size offset ++ rest') :
    ∃ before rest'', readEocd64 file bufOffset (.new (file.drop bufOffset)) locatorOffset =
      (readEocd64Record bufOffset f.position f.locatorDisks f.locatorDisk
        ⟨before, f.recordBytes nentry i size offset ++ rest'', true⟩).1 := by
  have hfound : (readEocd64Locator bufOffset locatorOffset
      ((ByteCursor.new (file.drop bufOffset)).setOffset locatorOffset)).1 =
      .ok (f.position, f.locatorDisks, f.locatorDisk) := by
    rw [setOffset_drop (by omega), hlocator, readEocd64Locator_eq_ok_iff hvalid.locatorDisks
      hvalid.locatorDisk hvalid.position]
    exact ⟨hposition, by omega, rfl⟩
  unfold readEocd64
  rw [hfound]
  dsimp only
  split
  · next hbuffer =>
    rw [setOffset_drop (by omega), Nat.add_sub_cancel' hbuffer.1, hrecord]
    exact ⟨_, rest', rfl⟩
  · have hlong : ¬ (file.drop f.position).length < eocd64Len := by
      rw [List.length_drop]
      omega
    have htake : (f.recordBytes nentry i size offset ++ rest').take eocd64Len =
        f.recordBytes nentry i size offset ++ [] := by
      rw [List.take_left' (hvalid.length_recordBytes ..), List.append_nil]
    rw [if_neg hlong, hrecord, htake]
    exact ⟨[], [], rfl⟩

theorem readEocd64_eq_ok_iff_zip64At {file : Bytes} (hfile : file.length ≤ int64Max)
    {eocdOffset : Nat}
    (hroom : bufferOffset file + eocdOffset + eocdLen ≤ file.length)
    (hfront : eocd64LocLen ≤ eocdOffset)
    (hmagic : (file.drop (bufferOffset file + (eocdOffset - eocd64LocLen))).take 4 =
      eocd64LocMagic) {r : EndRecord} :
    readEocd64 file (bufferOffset file) (.new (file.drop (bufferOffset file)))
        (eocdOffset - eocd64LocLen) = .ok r ↔
      ∃ f, r.Zip64At file (bufferOffset file + eocdOffset) f := by
  have hplace : bufferOffset file + eocdOffset - eocd64LocLen =
      bufferOffset file + (eocdOffset - eocd64LocLen) := by
    omega
  constructor
  · intro h
    obtain ⟨disks, disk, position, rest, hdisks, hdisk, hposition, hlocator⟩ :=
      exists_locatorBytes (by rw [List.length_drop]; omega) hmagic
    obtain ⟨hrange, hbehind⟩ : position ≤ int64Max ∧
        position + eocd64Len ≤ bufferOffset file + (eocdOffset - eocd64LocLen) := by
      cases hfound : (readEocd64Locator (bufferOffset file) (eocdOffset - eocd64LocLen)
          ((ByteCursor.new (file.drop (bufferOffset file))).setOffset
            (eocdOffset - eocd64LocLen))).1 with
      | error e =>
          unfold readEocd64 at h
          rw [hfound] at h
          cases h
      | ok found =>
          rw [setOffset_drop (by omega), hlocator,
            readEocd64Locator_eq_ok_iff hdisks hdisk hposition] at hfound
          exact ⟨hfound.1, by omega⟩
    obtain ⟨f, hvalid, rfl, rfl, rfl, nentry, i, size, offset, rest', hnentry, hi, hsize, hoffset,
      hrecord⟩ := exists_recordBytes hdisks hdisk hposition
        (show eocd64Len ≤ (file.drop position).length by rw [List.length_drop]; omega)
    obtain ⟨before, rest'', hread⟩ :=
      readEocd64_eq (by omega) hvalid hlocator hrange hbehind hrecord
    rw [hread, hvalid.readEocd64Record_eq_ok_iff hnentry hi hsize hoffset] at h
    obtain ⟨hmagic', hdisks', hdisk', rfl, hoffset', hsum, hinside, hallocatable, rfl⟩ := h
    exact ⟨f, rfl, hvalid, ⟨rest, by rw [hplace, hlocator]⟩, ⟨rest', hrecord.symm⟩, hmagic',
      hdisks', hdisk', by omega, hallocatable, hoffset', hsum, hinside⟩
  · rintro ⟨f, h⟩
    obtain ⟨rest, hlocator⟩ := h.locator
    obtain ⟨rest', hrecord⟩ := h.record
    have hbehind := h.behind
    have hsum := h.sum
    have hallocatable := h.nentry
    rw [hplace] at hlocator hbehind
    have hposition : f.position ≤ int64Max := by omega
    obtain ⟨before, rest'', hread⟩ :=
      readEocd64_eq (by omega) h.valid hlocator.symm hposition hbehind hrecord.symm
    unfold sizeofZipEntry at hallocatable
    rw [hread, h.valid.readEocd64Record_eq_ok_iff (by omega) (by omega) (by omega) (by omega)]
    refine ⟨h.magic, h.disks, h.disk, rfl, h.offset, hsum, h.inside, h.nentry, ?_⟩
    rw [← h.isZip64]

/-! ## Directories -/

/-- The magic of a locator stands in front of the position. -/
def LocatorBefore (file : Bytes) (position : Nat) : Prop :=
  eocd64LocLen ≤ position ∧ (file.drop (position - eocd64LocLen)).take 4 = eocd64LocMagic

/-- The end record at the position, or the 64-bit one that its locator leads to,
says this of the directory. -/
def EndRecord.At (file : Bytes) (position : Nat) (r : EndRecord) : Prop :=
  LocatorBefore file position ∧ (∃ f, r.Zip64At file position f) ∨
    ¬ LocatorBefore file position ∧ r.PlainAt file position

/-- The position is one at which end records are looked for. -/
structure Searched (file : Bytes) (position : Nat) : Prop where
  start : bufferOffset file + searchStart file ≤ position
  room : position + eocdLen ≤ file.length
  magic : (file.drop position).take 4 = eocdMagic

/-- The directory that the end record at the position announces: a row of records
in the file, as many as announced (modulo 0x10000 without ZIP64), and the comment
behind the end record. -/
structure Cdir.At (calendar : Calendar) (file : Bytes) (position : Nat) (cd : Cdir) : Prop where
  searched : Searched file position
  endRecord : ∃ r : EndRecord, r.At file position ∧ cd.size = r.size ∧ cd.offset = r.offset ∧
    cd.isZip64 = r.isZip64 ∧ CountFits r.isZip64 r.nentry cd.entries.length
  inside : cd.offset + cd.size ≤ position
  records : ∃ rs, recordRow rs <+: file.drop cd.offset ∧ (recordRow rs).length = cd.size ∧
    List.Forall₂ (RawRecord.ReadsAs calendar) rs cd.entries
  comment : ∃ raw : Bytes, raw.length < 256 ^ 2 ∧
    le 2 raw.length ++ raw <+: file.drop (position + 20) ∧
    cd.comment = if raw = [] then none else some ⟨raw, none⟩

/-- The comment has the announced length. -/
theorem readArchiveComment_eq_ok_iff {file : Bytes} {bufOffset eocdOffset : Nat}
    (hroom : bufOffset + eocdOffset + eocdLen ≤ file.length) {c : Option ZipString} :
    readArchiveComment (.new (file.drop bufOffset)) eocdOffset
        (((ByteCursor.new (file.drop bufOffset)).setOffset (eocdOffset + 20)).getLE 2).1 = .ok c ↔
      ∃ raw : Bytes, raw.length < 256 ^ 2 ∧
        le 2 raw.length ++ raw <+: file.drop (bufOffset + eocdOffset + 20) ∧
        c = if raw = [] then none else some ⟨raw, none⟩ := by
  unfold eocdLen at hroom
  obtain ⟨n, rest, hn, hbytes⟩ :
      ∃ n rest, n < 256 ^ 2 ∧ file.drop (bufOffset + (eocdOffset + 20)) = le 2 n ++ rest :=
    exists_le_append (by rw [List.length_drop]; omega)
  have hrest : file.drop (bufOffset + (eocdOffset + eocdLen)) = rest := by
    have hdrop := congrArg (List.drop 2) hbytes
    rw [List.drop_drop, List.drop_left' (length_le 2 n)] at hdrop
    rw [← hdrop]
    rfl
  rw [setOffset_drop (by omega), hbytes, ByteCursor.getLE_append, Nat.mod_eq_of_lt hn,
    Nat.add_assoc bufOffset, hbytes]
  have htexts : ∀ raw : Bytes, raw.length < 256 ^ 2 →
      (le 2 raw.length ++ raw <+: le 2 n ++ rest ↔ raw.length = n ∧ raw <+: rest) := by
    intro raw hraw
    constructor
    · rintro ⟨t, ht⟩
      rw [List.append_assoc] at ht
      obtain ⟨hle, htail⟩ := List.append_inj ht (by simp)
      have hlength := congrArg ofLE hle
      rw [ofLE_le_of_lt hraw, ofLE_le_of_lt hn] at hlength
      exact ⟨hlength, t, htail⟩
    · rintro ⟨rfl, t, ht⟩
      exact ⟨t, by rw [List.append_assoc, ht]⟩
  unfold readArchiveComment
  split
  · next hzero =>
    constructor
    · intro h
      cases h
      exact ⟨[], by simp, (htexts [] (by simp)).mpr ⟨hzero.symm, List.nil_prefix⟩, by simp⟩
    · rintro ⟨raw, hraw, hbytes, rfl⟩
      have hlength := ((htexts raw hraw).mp hbytes).1
      have hnil : raw = [] := List.length_eq_zero_iff.mp (hlength.trans hzero)
      simp [hnil]
  · next hpos =>
    rw [setOffset_drop (by unfold eocdLen; omega), hrest, ByteCursor.get]
    by_cases hinside : n ≤ rest.length
    · rw [if_pos ⟨rfl, hinside⟩]
      have hlength := List.length_take_of_le hinside
      constructor
      · intro h
        cases h
        refine ⟨rest.take n, by omega, (htexts _ (by omega)).mpr
          ⟨hlength, List.take_prefix n rest⟩, ?_⟩
        rw [if_neg]
        intro hnil
        rw [hnil] at hlength
        exact hpos hlength.symm
      · rintro ⟨raw, hraw, hbytes, rfl⟩
        obtain ⟨rfl, hraw'⟩ := (htexts raw hraw).mp hbytes
        rw [if_neg (mt (congrArg List.length) hpos), ← List.prefix_iff_eq_take.mp hraw']
    · rw [if_neg (fun h => hinside h.2)]
      constructor
      · intro h
        cases h
      · rintro ⟨raw, hraw, hbytes, -⟩
        obtain ⟨rfl, hraw'⟩ := (htexts raw hraw).mp hbytes
        exact absurd hraw'.length_le hinside

theorem readEndRecord_eq_ok_iff {file : Bytes} (hfile : file.length ≤ int64Max) {eocdOffset : Nat}
    (hsearched : Searched file (bufferOffset file + eocdOffset)) {r : EndRecord} :
    readEndRecord file (bufferOffset file) (.new (file.drop (bufferOffset file))) eocdOffset =
        .ok r ↔ r.At file (bufferOffset file + eocdOffset) := by
  have hroom := hsearched.room
  have hstart := hsearched.start
  have hdata : (ByteCursor.new (file.drop (bufferOffset file))).data =
      file.drop (bufferOffset file) := by
    simp [ByteCursor.new, ByteCursor.data]
  -- a buffer that does not begin the file is searched behind the place for a locator
  have hbegin : bufferOffset file = 0 ∨ eocd64LocLen ≤ eocdOffset := by
    unfold bufferOffset searchStart at *
    split at hstart <;> omega
  have hbefore : LocatorBefore file (bufferOffset file + eocdOffset) ↔
      eocd64LocLen ≤ eocdOffset ∧
        (file.drop (bufferOffset file + (eocdOffset - eocd64LocLen))).take 4 = eocd64LocMagic := by
    unfold LocatorBefore
    rcases hbegin with hzero | hfront
    · simp [hzero]
    · have hplace : bufferOffset file + eocdOffset - eocd64LocLen =
          bufferOffset file + (eocdOffset - eocd64LocLen) := by
        omega
      rw [hplace, and_iff_right hfront, and_iff_right (by omega)]
  unfold readEndRecord EndRecord.At
  rw [hdata, List.drop_drop, hbefore]
  split
  · next hlocator =>
    rw [readEocd64_eq_ok_iff_zip64At hfile hroom hlocator.1 hlocator.2]
    simp [hlocator]
  · next hnone =>
    rw [readEocd_eq_ok_iff_plainAt hroom hsearched.magic]
    simp [hnone]

/-- What `_zip_read_cdir` returns at a position that is tried. -/
theorem readCdir_eq_ok_iff_at {calendar : Calendar} {file : Bytes} (hfile : file.length ≤ int64Max)
    {eocdOffset : Nat} (hsearched : Searched file (bufferOffset file + eocdOffset)) {cd : Cdir} :
    readCdir calendar file (bufferOffset file) (.new (file.drop (bufferOffset file))) eocdOffset =
        .ok cd ↔ cd.At calendar file (bufferOffset file + eocdOffset) := by
  have hroom := hsearched.room
  have hlength : eocdLen ≤ ((ByteCursor.new (file.drop (bufferOffset file))).setOffset
      eocdOffset).left := by
    rw [setOffset_drop (by omega)]
    simp [ByteCursor.left]
    omega
  have hmagic : (((ByteCursor.new (file.drop (bufferOffset file))).setOffset eocdOffset).get 4).1 =
      some eocdMagic := by
    unfold eocdLen at hroom
    rw [setOffset_drop (by omega), ByteCursor.get,
      if_pos ⟨rfl, by rw [List.length_drop]; omega⟩, hsearched.magic]
  rw [readCdir_eq_ok_iff, and_iff_right hlength, and_iff_right hmagic]
  simp only [readEndRecord_eq_ok_iff hfile hsearched, readArchiveComment_eq_ok_iff hroom]
  constructor
  · rintro ⟨r, hr, hinside, hcomment, hdirectory, hsize, hoffset, hisZip64⟩
    rw [readDirectory_eq_ok_iff hfile (by omega)] at hdirectory
    obtain ⟨rs, rest, hrow, hrowSize, hrs, hfits⟩ := hdirectory
    exact ⟨hsearched, ⟨r, hr, hsize, hoffset, hisZip64, hfits⟩, by omega,
      ⟨rs, ⟨rest, by rw [hoffset, hrow]⟩, by omega, hrs⟩, hcomment⟩
  · intro h
    obtain ⟨r, hr, hsize, hoffset, hisZip64, hfits⟩ := h.endRecord
    obtain ⟨rs, ⟨rest, hrow⟩, hrowSize, hrs⟩ := h.records
    have hinside := h.inside
    refine ⟨r, hr, by omega, h.comment, ?_, hsize, hoffset, hisZip64⟩
    rw [readDirectory_eq_ok_iff hfile (by omega)]
    exact ⟨rs, rest, by rw [← hoffset, hrow], by omega, hrs, hfits⟩

/-- The positions of the buffer that are tried. -/
theorem mem_endRecordPositions_iff {file : Bytes} {eocdOffset : Nat} :
    eocdOffset ∈ endRecordPositions (file.drop (bufferOffset file)) (searchStart file) ↔
      Searched file (bufferOffset file + eocdOffset) := by
  unfold endRecordPositions isEndRecordAt
  rw [List.mem_filter, List.mem_range'_1, List.drop_drop, decide_eq_true_iff, List.length_drop]
  constructor
  · rintro ⟨⟨hstart, hend⟩, hmagic⟩
    refine ⟨by omega, ?_, hmagic⟩
    unfold eocdLen at hend ⊢
    omega
  · intro h
    have hstart := h.start
    have hroom := h.room
    unfold eocdLen at hroom ⊢
    exact ⟨⟨by omega, by omega⟩, h.magic⟩

/-- A directory is read at a position of the buffer just where it is announced. -/
theorem toOption_readCdir_eq_some_iff {calendar : Calendar} {file : Bytes}
    (hfile : file.length ≤ int64Max) {eocdOffset : Nat}
    (hsearched : Searched file (bufferOffset file + eocdOffset)) {cd : Cdir} :
    (readCdir calendar file (bufferOffset file) (.new (file.drop (bufferOffset file)))
        eocdOffset).toOption = some cd ↔ cd.At calendar file (bufferOffset file + eocdOffset) := by
  rw [← readCdir_eq_ok_iff_at hfile hsearched]
  cases readCdir calendar file (bufferOffset file) (.new (file.drop (bufferOffset file)))
    eocdOffset with
  | error e => simp [Except.toOption]
  | ok cd' => simp [Except.toOption]

/-- The directories that can be read are those that end records announce. -/
theorem mem_readableDirs_iff {calendar : Calendar} {file : Bytes} (hfile : file.length ≤ int64Max)
    {cd : Cdir} :
    cd ∈ readableDirs calendar file ↔ ∃ position, cd.At calendar file position := by
  have hdata : (ByteCursor.new (file.drop (bufferOffset file))).data =
      file.drop (bufferOffset file) := by
    simp [ByteCursor.new, ByteCursor.data]
  unfold readableDirs
  dsimp only
  rw [hdata, List.mem_filterMap]
  constructor
  · rintro ⟨eocdOffset, hmem, hcd⟩
    have hsearched := mem_endRecordPositions_iff.mp hmem
    exact ⟨_, (toOption_readCdir_eq_some_iff hfile hsearched).mp hcd⟩
  · rintro ⟨position, h⟩
    have hstart := h.searched.start
    have hplace : position = bufferOffset file + (position - bufferOffset file) := by omega
    rw [hplace] at h
    exact ⟨position - bufferOffset file, mem_endRecordPositions_iff.mpr h.searched,
      (toOption_readCdir_eq_some_iff hfile h.searched).mpr h⟩

/-- A list without duplicates from which a partial map makes a single value. -/
theorem length_filterMap_eq_one_iff {α β : Type} {f : α → Option β} {l : List α} (hl : l.Nodup) :
    (l.filterMap f).length = 1 ↔ ∃ a ∈ l, (f a).isSome = true ∧
      ∀ a' ∈ l, (f a').isSome = true → a' = a := by
  rw [List.length_filterMap_eq_countP, List.countP_eq_length_filter, List.length_eq_one_iff]
  constructor
  · rintro ⟨a, ha⟩
    have hmem : a ∈ l.filter fun a => (f a).isSome := by simp [ha]
    obtain ⟨hal, hsome⟩ := List.mem_filter.mp hmem
    refine ⟨a, hal, hsome, fun a' ha' hsome' => ?_⟩
    have hmem' : a' ∈ l.filter fun a => (f a).isSome := List.mem_filter.mpr ⟨ha', hsome'⟩
    rw [ha] at hmem'
    exact List.mem_singleton.mp hmem'
  · rintro ⟨a, hal, hsome, hall⟩
    have hreplicate := List.eq_replicate_of_mem fun a' ha' =>
      hall a' (List.mem_filter.mp ha').1 (List.mem_filter.mp ha').2
    have hnodup := hl.filter fun a => (f a).isSome
    rw [hreplicate, List.nodup_replicate] at hnodup
    have hpos : 0 < (l.filter fun a => (f a).isSome).length :=
      List.length_pos_of_mem (List.mem_filter.mpr ⟨hal, hsome⟩)
    have hone : (l.filter fun a => (f a).isSome).length = 1 := by omega
    rw [hone] at hreplicate
    exact ⟨a, hreplicate⟩

/-- A single directory can be read just where a single end record announces one. -/
theorem length_readableDirs_eq_one_iff {calendar : Calendar} {file : Bytes}
    (hfile : file.length ≤ int64Max) :
    (readableDirs calendar file).length = 1 ↔ ∃ (position : Nat) (cd : Cdir),
      cd.At calendar file position ∧ ∀ (position' : Nat) (cd' : Cdir),
        cd'.At calendar file position' → position' = position := by
  have hdata : (ByteCursor.new (file.drop (bufferOffset file))).data =
      file.drop (bufferOffset file) := by
    simp [ByteCursor.new, ByteCursor.data]
  have hnodup : (endRecordPositions (file.drop (bufferOffset file)) (searchStart file)).Nodup :=
    (List.nodup_range').filter _
  unfold readableDirs
  dsimp only
  rw [hdata, length_filterMap_eq_one_iff hnodup]
  constructor
  · rintro ⟨eocdOffset, hmem, hsome, hall⟩
    obtain ⟨cd, hcd⟩ := Option.isSome_iff_exists.mp hsome
    have hsearched := mem_endRecordPositions_iff.mp hmem
    refine ⟨_, cd, (toOption_readCdir_eq_some_iff hfile hsearched).mp hcd,
      fun position' cd' h => ?_⟩
    have hstart := h.searched.start
    have hplace : position' = bufferOffset file + (position' - bufferOffset file) := by omega
    rw [hplace] at h
    have hsame := hall _ (mem_endRecordPositions_iff.mpr h.searched)
      (Option.isSome_iff_exists.mpr ⟨cd', (toOption_readCdir_eq_some_iff hfile h.searched).mpr h⟩)
    omega
  · rintro ⟨position, cd, h, hall⟩
    have hstart := h.searched.start
    have hplace : position = bufferOffset file + (position - bufferOffset file) := by omega
    rw [hplace] at h
    refine ⟨position - bufferOffset file, mem_endRecordPositions_iff.mpr h.searched,
      Option.isSome_iff_exists.mpr ⟨cd, (toOption_readCdir_eq_some_iff hfile h.searched).mpr h⟩,
      fun eocdOffset hmem hsome => ?_⟩
    obtain ⟨cd', hcd'⟩ := Option.isSome_iff_exists.mp hsome
    have hsearched := mem_endRecordPositions_iff.mp hmem
    have hsame := hall _ cd' ((toOption_readCdir_eq_some_iff hfile hsearched).mp hcd')
    omega

/-- **What an archive that opens consists of**: an end record in the last part of the
file announces a directory, which is a row of records in front of it, of a number that
fits the announced one; no other directory spans more; and the entries are those of the
records. -/
theorem exists_directory_of_parseArchive {calendar : Calendar} {file : Bytes}
    (hfile : file.length ≤ int64Max) {des : List Dirent}
    (h : parseArchive calendar file = some des) :
    ∃ (position : Nat) (cd : Cdir), cd.At calendar file position ∧
      des = cd.entries.map (ReadDirent.dirent calendar) ∧
      ∀ (position' : Nat) (cd' : Cdir), cd'.At calendar file position' →
        cd'.span calendar file ≤ cd.span calendar file := by
  rw [parseArchive_of_bare (map_bare_findCentralDir calendar file)] at h
  obtain ⟨best, hbest, rfl⟩ := Option.map_eq_some_iff.mp h
  obtain ⟨hmem, hwidest⟩ := chooseDir_eq_some hbest
  obtain ⟨cd, hcd, rfl⟩ := List.mem_map.mp hmem
  obtain ⟨position, hat⟩ := (mem_readableDirs_iff hfile).mp hcd
  refine ⟨position, cd, hat, by simp [Cdir.bare], fun position' cd' hat' => ?_⟩
  have hle := hwidest cd'.bare
    (List.mem_map_of_mem ((mem_readableDirs_iff hfile).mpr ⟨position', hat'⟩))
  rwa [span_bare, span_bare] at hle

/-- An archive of the empty files `a` and `b`; its comment is the end record of an empty
archive. -/
def nestedArchive : Bytes :=
  localMagic ++ List.replicate 22 0 ++ [1, 0, 0, 0, 97] ++
    (localMagic ++ List.replicate 22 0 ++ [1, 0, 0, 0, 98]) ++
    (centralMagic ++ List.replicate 24 0 ++ [1] ++ List.replicate 17 0 ++ [97]) ++
    (centralMagic ++ List.replicate 24 0 ++ [1] ++ List.replicate 13 0 ++ [31, 0, 0, 0, 98]) ++
    (eocdMagic ++ [0, 0, 0, 0, 2, 0, 2, 0, 94, 0, 0, 0, 62, 0, 0, 0, 22, 0]) ++
    (eocdMagic ++ List.replicate 18 0)

/-- Its entries are those of the directory of two records. -/
theorem exists_directory_of_parseArchive_nested :
    ∃ (position : Nat) (cd : Cdir), cd.At firstDay nestedArchive position ∧
      (cd.entries.map (ReadDirent.dirent firstDay)).map Dirent.filename = [ascii "a", ascii "b"] ∧
      ∀ (position' : Nat) (cd' : Cdir), cd'.At firstDay nestedArchive position' →
        cd'.span firstDay nestedArchive ≤ cd.span firstDay nestedArchive := by
  have hparse : (parseArchive firstDay nestedArchive).map (List.map Dirent.filename) =
      some [ascii "a", ascii "b"] := by
    decide +kernel
  obtain ⟨des, hparse, hnames⟩ := Option.map_eq_some_iff.mp hparse
  obtain ⟨position, cd, hat, hdes, hwidest⟩ :=
    exists_directory_of_parseArchive (by decide +kernel) hparse
  rw [hdes] at hnames
  exact ⟨position, cd, hat, hnames, hwidest⟩

/-- **The files that are refused**: those in which every directory that an end record
announces is implausible, and is not the only one. -/
theorem parseArchive_eq_none_iff {calendar : Calendar} {file : Bytes}
    (hfile : file.length ≤ int64Max) :
    parseArchive calendar file = none ↔ ∀ (position : Nat) (cd : Cdir),
      cd.At calendar file position → cd.span calendar file < 0 ∧
        ∃ (position' : Nat) (cd' : Cdir), position' ≠ position ∧
          cd'.At calendar file position' := by
  rw [parseArchive_of_bare (map_bare_findCentralDir calendar file), Option.map_eq_none_iff,
    chooseDir_eq_none_iff, List.length_map, ne_eq, length_readableDirs_eq_one_iff hfile]
  constructor
  · rintro ⟨hseveral, himplausible⟩ position cd h
    have hmem := (mem_readableDirs_iff hfile).mpr ⟨position, h⟩
    have hneg := himplausible cd.bare (List.mem_map_of_mem hmem)
    rw [span_bare] at hneg
    refine ⟨hneg, ?_⟩
    by_contra hnone
    refine hseveral ⟨position, cd, h, fun position' cd' h' => ?_⟩
    by_contra hne
    exact hnone ⟨position', cd', hne, h'⟩
  · intro h
    constructor
    · rintro ⟨position, cd, hcd, hall⟩
      obtain ⟨-, position', cd', hne, hcd'⟩ := h position cd hcd
      exact hne (hall position' cd' hcd')
    · intro best hbest
      obtain ⟨cd, hcd, rfl⟩ := List.mem_map.mp hbest
      obtain ⟨position, hat⟩ := (mem_readableDirs_iff hfile).mp hcd
      rw [span_bare]
      exact (h position cd hat).1

/-- Two end records that announce the same record, which is no local header where it
says there is one. -/
def strayArchive : Bytes :=
  centralMagic ++ List.replicate 42 0 ++
    (eocdMagic ++ [0, 0, 0, 0, 1, 0, 1, 0, 46, 0, 0, 0, 0, 0, 0, 0, 22, 0]) ++
    (eocdMagic ++ [0, 0, 0, 0, 1, 0, 1, 0, 46, 0, 0, 0, 0, 0, 0, 0, 0, 0])

/-- Both directories can be read, and both are implausible. -/
theorem parseArchive_eq_none_iff_stray :
    parseArchive firstDay strayArchive = none ∧
      ∃ (position position' : Nat) (cd cd' : Cdir), position' ≠ position ∧
        cd.At firstDay strayArchive position ∧ cd'.At firstDay strayArchive position' ∧
        cd.span firstDay strayArchive < 0 := by
  have hlength : strayArchive.length ≤ int64Max := by decide +kernel
  have hrefused : parseArchive firstDay strayArchive = none := by decide +kernel
  have hsome : readableDirs firstDay strayArchive ≠ [] := by decide +kernel
  obtain ⟨cd, hcd⟩ := List.exists_mem_of_ne_nil _ hsome
  obtain ⟨position, hat⟩ := (mem_readableDirs_iff hlength).mp hcd
  obtain ⟨hspan, position', cd', hne, hat'⟩ :=
    (parseArchive_eq_none_iff hlength).mp hrefused position cd hat
  exact ⟨hrefused, position, position', cd, cd', hne, hat, hat', hspan⟩

end Archive
end AllvmTools
