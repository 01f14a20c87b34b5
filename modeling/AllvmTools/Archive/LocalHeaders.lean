import AllvmTools.Archive.ArchiveRoundTrip

/-!
# Local headers and the consistency check

What `_zip_dirent_read` makes of a local header that `_zip_dirent_write` wrote, and
the check of `_zip_checkcons` on a whole archive as `zip_close` lays it out.

* `span_writtenCdir` — a written archive is plausible, and its files span what
  they take.
* `parseArchive_archiveBytes` — so it is opened with its entries.
-/

namespace AllvmTools
namespace Archive

open Library Library.Text Library.Files Library.LittleEndian

/-! ## A local header, read back -/

/-- The entry's flags are those that were written. -/
def Dirent.FlagsWritten (de : Dirent) : Prop :=
  de.withWriteFlags = de

/-- The numbers that a local header of the entry holds. -/
def Dirent.localFields (de : Dirent) (force : Bool) : FixedFields where
  versionMadeby := 0
  versionNeeded := if de.needsZip64 false then 45 else de.versionNeeded
  bitflags := de.bitflags
  compMethod := de.compMethod.code
  dostime := de.dosTime
  dosdate := de.dosDate
  crc := de.crc.toNat
  compSize := if de.needsZip64 false then uint32Max else de.compSize
  uncompSize := if de.needsZip64 false then uint32Max else de.uncompSize
  filenameLen := de.filename.length
  efLen := (de.localExtra force).length
  commentLen := 0
  diskNumber := 0
  intAttrib := 0
  extAttrib := 0
  offset := 0

/-- The parts that a local header of the entry is written from. -/
def Dirent.localRecord (de : Dirent) (force : Bool) : RawRecord :=
  ⟨de.localFields force, de.filename, de.localExtra force, []⟩

theorem needsZip64_false_eq_false_iff (de : Dirent) :
    de.needsZip64 false = false ↔ de.uncompSize < uint32Max ∧ de.compSize < uint32Max := by
  simp [Dirent.needsZip64]

theorem localSizes_eq (de : Dirent) (force : Bool) :
    de.localSizes =
      le 4 (de.localFields force).compSize ++ le 4 (de.localFields force).uncompSize := by
  unfold Dirent.localSizes Dirent.localFields
  cases hneeds : de.needsZip64 false with
  | true =>
      rw [if_pos]
      · simp
      · by_contra hsmall
        have hfalse := (needsZip64_false_eq_false_iff de).mpr (by omega)
        rw [hneeds] at hfalse
        cases hfalse
  | false =>
      obtain ⟨huncomp, hcomp⟩ := (needsZip64_false_eq_false_iff de).mp hneeds
      rw [if_neg (by omega), sizeField_eq, sizeField_eq, sizeNumber_of_lt (by omega),
        sizeNumber_of_lt (by omega)]
      simp

theorem bytes_localRecord (de : Dirent) (force : Bool) :
    (de.localRecord force).bytes true = de.localHeader force := by
  unfold Dirent.localHeader Dirent.localFixed
  rw [localSizes_eq de force]
  simp [RawRecord.bytes, Dirent.localRecord, Dirent.localFields, FixedFields.layout, leIf,
    headerMagic, Dirent.commonFields]

theorem Dirent.Writable.valid_localRecord {de : Dirent} (h : de.Writable) (force : Bool) :
    (de.localRecord force).Valid true where
  inRange := by
    have hcrc : de.crc.toNat < 256 ^ 4 := de.crc.toNat_lt
    have hextra := length_localExtra_le de force
    have hversion := h.versionNeeded
    have hmax : uint32Max = 0xFFFFFFFF := rfl
    constructor <;> simp only [localRecord, localFields]
    case versionNeeded =>
      split <;> omega
    case compSize | uncompSize =>
      cases hneeds : de.needsZip64 false with
      | true => simp [hmax]
      | false =>
          obtain ⟨huncomp, hcomp⟩ := (needsZip64_false_eq_false_iff de).mp hneeds
          simp
          omega
    case efLen => omega
    all_goals first
      | exact hcrc
      | exact h.bitflags
      | exact h.compMethod
      | exact h.dosTime
      | exact h.dosDate
      | exact h.filename
      | simp
  name := rfl
  extra := rfl
  comment := rfl

/-- The entry as its local header gives it. -/
def Dirent.localBack (calendar : Calendar) (de : Dirent) (force : Bool) : ReadDirent where
  versionMadeby := 0
  versionNeeded := if de.needsZip64 false then 45 else de.versionNeeded
  bitflags := de.bitflags
  compMethod := de.compMethod.code
  lastMod := calendar.d2uTime de.dosTime de.dosDate
  crc := de.crc
  crcValid := true
  compSize := de.compSize
  uncompSize := de.uncompSize
  filename := de.readName
  comment := none
  extraFields := []
  localExtraFieldsRead := decide ((de.localExtra force).length ≠ 0)
  diskNumber := 0
  intAttrib := 0
  extAttrib := 0
  offset := 0
  encryptionMethod :=
    if de.encrypted then
      if hasBit de.bitflags gpbfStrongEncryption then .unknown else .tradPkware
    else
      .none

/-- The writer leaves the ZIP64 field of the local header empty although the sizes
are marked. -/
def Dirent.LocalMisread (de : Dirent) (force : Bool) : Prop :=
  de.needsZip64 false = true ∧ force = false ∧ de.compSize ≤ uint32Max ∧ de.uncompSize ≤ uint32Max

/-- What the ZIP64 field of a local header holds. -/
def Dirent.localZip64Data (de : Dirent) (force : Bool) : Bytes :=
  if force || decide (uint32Max < de.compSize) || decide (uint32Max < de.uncompSize) then
    le 8 de.uncompSize ++ le 8 de.compSize
  else
    []

/-- The extra fields of a local header. -/
def Dirent.localExtraFields (de : Dirent) (force : Bool) : List ExtraField :=
  zip64Fields true (de.localIsZip64 force) (de.localZip64Data force)

theorem efParse_localExtra (de : Dirent) (force : Bool) :
    efParse (.of true) (de.localExtra force) = .ok (de.localExtraFields force) := by
  have hextra : de.localExtra force = efBytes (de.localExtraFields force) := by
    unfold Dirent.localExtra Dirent.localExtraFields Dirent.localZip64Field efBytes zip64Fields
    split <;> simp [Dirent.localZip64Data, efZip64]
  have hdata : (de.localZip64Data force).length ≤ 16 := by
    unfold Dirent.localZip64Data
    split <;> simp
  rw [hextra]
  exact efParse_zip64Fields (by omega)

/-- The entry of a local header before its 64-bit sizes are looked at. -/
def Dirent.localMarked (calendar : Calendar) (de : Dirent) (force : Bool) : ReadDirent :=
  { de.localBack calendar force with
    compSize := (de.localFields force).compSize
    uncompSize := (de.localFields force).uncompSize
    extraFields := de.localExtraFields force }

theorem withVariable_localFields (calendar : Calendar) {de : Dirent} (hflags : de.FlagsWritten)
    (force : Bool) :
    (de.localFields force).withVariable calendar true de.readName (de.localExtraFields force) none =
      de.localMarked calendar force := by
  have hencrypted := hasBit_withWriteFlags_encrypted de
  rw [hflags] at hencrypted
  unfold FixedFields.withVariable Dirent.localExtraFields
  rw [processEfUtf8_zip64Fields _ _ _ (by decide), processEfUtf8_zip64Fields _ _ _ (by decide)]
  unfold FixedFields.readDirent Dirent.localMarked Dirent.localBack Dirent.localFields
    Dirent.localExtraFields
  dsimp only
  rw [hencrypted, UInt32.ofNat_toNat]
  rfl

/-- The 64-bit sizes are those of the entry. -/
theorem zip64_localMarked {calendar : Calendar} {de : Dirent} (h : de.Writable) {force : Bool}
    (hmisread : ¬ de.LocalMisread force) :
    (de.localMarked calendar force).zip64 true =
      .ok { de.localBack calendar force with extraFields := de.localExtraFields force } := by
  have hmax : uint32Max = 0xFFFFFFFF := rfl
  unfold ReadDirent.zip64
  cases hneeds : de.needsZip64 false with
  | false =>
      obtain ⟨huncomp, hcomp⟩ := (needsZip64_false_eq_false_iff de).mp hneeds
      simp only [Dirent.localMarked, Dirent.localFields, hneeds, Dirent.localBack]
      rw [if_neg]
      · simp
      · simp
        omega
  | true =>
      have hdata : de.localZip64Data force = le 8 de.uncompSize ++ le 8 de.compSize := by
        unfold Dirent.localZip64Data
        rw [if_pos]
        unfold Dirent.LocalMisread at hmisread
        cases force with
        | true => simp
        | false =>
            have hbeyond : ¬ (de.compSize ≤ uint32Max ∧ de.uncompSize ≤ uint32Max) :=
              fun hsizes => hmisread ⟨hneeds, rfl, hsizes⟩
            simp
            omega
      have hfield : efGetById (de.localExtraFields force) efZip64 0 (.of true) =
          some (le 8 de.uncompSize ++ le 8 de.compSize) := by
        unfold Dirent.localExtraFields Dirent.localIsZip64
        rw [hneeds, Bool.or_true, efGetById_zip64Fields, hdata]
      have huncomp := ByteCursor.getLE_append [] (le 8 de.compSize) 8 de.uncompSize
      have hcomp := ByteCursor.getLE_append ([] ++ le 8 de.uncompSize) [] 8 de.compSize
      rw [Nat.mod_eq_of_lt (by have := h.uncompSize; omega)] at huncomp
      rw [List.append_nil, Nat.mod_eq_of_lt (by have := h.compSize; omega)] at hcomp
      simp only [Dirent.localMarked, Dirent.localFields, hneeds, Dirent.localBack, hfield, if_true,
        true_or, ByteCursor.new, huncomp, hcomp]
      simp [ByteCursor.eof]

/-- A local header is read as the entry, unless it is misread. -/
theorem read_localRecord (calendar : Calendar) {de : Dirent} (h : de.Writable)
    (hflags : de.FlagsWritten) {force : Bool} (hmisread : ¬ de.LocalMisread force) :
    (de.localRecord force).read calendar true = .ok (de.localBack calendar force) := by
  have hname := h.stringOf_filename
  rw [hflags] at hname
  have hextra := efParse_localExtra de force
  have hmarked := withVariable_localFields calendar hflags force
  have hremove : efRemoveInternal (de.localExtraFields force) = [] :=
    efRemoveInternal_zip64Fields ..
  have hfinish : (de.localMarked calendar force).finish true true =
      .ok (de.localBack calendar force) := by
    unfold ReadDirent.finish
    rw [zip64_localMarked h hmisread]
    dsimp only
    rw [if_neg (by decide), if_neg (by simp [Dirent.localBack]), ReadDirent.processWinzipAes,
      if_pos (by simpa [Dirent.localBack] using h.notWinzipAes)]
    dsimp only
    rw [hremove]
    rfl
  rw [← hfinish, ← hmarked]
  unfold RawRecord.read RawRecord.parts Dirent.localRecord
  rw [show (de.localFields force).bitflags = de.bitflags from rfl, hname, hextra]
  rfl

/-- A local header that was written is read where it stands. -/
theorem direntRead_localHeader (calendar : Calendar) (fromBuffer : Bool) {de : Dirent}
    (h : de.Writable) (hflags : de.FlagsWritten) {force : Bool}
    (hmisread : ¬ de.LocalMisread force) (rest : Bytes) :
    direntRead calendar fromBuffer true (de.localHeader force ++ rest) =
      .ok (de.localBack calendar force, (de.localHeader force).length) := by
  rw [← bytes_localRecord, direntRead_bytes calendar fromBuffer (h.valid_localRecord force),
    read_localRecord calendar h hflags hmisread]
  rfl

/-- The two headers of an entry agree. -/
theorem headersAgree_written (calendar : Calendar) {de : Dirent} (hversion : de.versionNeeded ≤ 45)
    (force : Bool) :
    headersAgree (de.readBack calendar) (de.localBack calendar force) = true := by
  have hneeded : (if de.needsZip64 false = true then 45 else de.versionNeeded) ≤
      if de.needsZip64 true = true then 45 else de.versionNeeded := by
    have hmore : de.needsZip64 false = true → de.needsZip64 true = true := by
      simp [Dirent.needsZip64]
      omega
    split
    · next hneeds => rw [if_pos (hmore hneeds)]
    · split <;> omega
  simp [headersAgree, Dirent.readBack, Dirent.localBack, stringEqual, hneeded]

/-! ## The check of a written archive -/

/-- A block whose headers agree and whose data is as long as they say. -/
structure Block.Consistent (b : Block) : Prop where
  writable : b.de.Writable
  flagsWritten : b.de.FlagsWritten
  notMisread : ¬ b.de.LocalMisread b.force
  versionNeeded : b.de.versionNeeded ≤ 45
  compSize : b.de.compSize = b.data.length

/-- How far the check reckons that the last of some blocks reaches. -/
def lastReach : Nat → List Block → Nat
  | high, [] => high
  | _, b :: rest => lastReach (b.de.offset + b.de.compSize + b.de.filename.length + lentrySize) rest

theorem raw_of_expectUtf8 {s s' : ZipString} (h : s.expectUtf8 = some s') : s'.raw = s.raw := by
  unfold ZipString.expectUtf8 at h
  split at h <;> cases h <;> rfl

/-- The name that is read has the bytes of the name. -/
theorem map_raw_readName {de : Dirent}
    (h : de.nameEncoding = .utf8Known → guessEncoding de.filename ≠ .cp437) :
    (de.readName.map ZipString.raw).getD [] = de.filename := by
  unfold Dirent.readName
  split
  · next hnil => simp [hnil]
  · split
    · next hknown =>
      cases hs : (ZipString.mk de.filename none).expectUtf8 with
      | none => exact absurd ((expectUtf8_eq_none_iff _).mp hs) (h hknown)
      | some s => simp [raw_of_expectUtf8 hs]
    · simp

theorem stringLength_eq (s : Option ZipString) :
    stringLength s = ((s.map ZipString.raw).getD []).length := by
  cases s <;> simp [stringLength]

/-- The files of an archive reach no further than its blocks. -/
theorem lastReach_le {start : Nat} {blocks : List Block} (hoffsets : Consecutive start blocks)
    (hblocks : ∀ b ∈ blocks, b.Consistent) :
    start ≤ lastReach start blocks ∧
      lastReach start blocks ≤ start + (blockBytes blocks).length := by
  have hreach : ∀ high ≤ start, high ≤ lastReach high blocks ∧
      lastReach high blocks ≤ start + (blockBytes blocks).length := by
    induction blocks generalizing start with
    | nil =>
        intro high hhigh
        simp only [lastReach]
        omega
    | cons b rest ih =>
        obtain ⟨hoffset, hoffsets⟩ := hoffsets
        have hb := (hblocks b List.mem_cons_self).compSize
        have hheader := length_localHeader b.de b.force
        have hblock : b.bytes.length = (b.de.localHeader b.force).length + b.data.length :=
          List.length_append
        have hbytes : (blockBytes (b :: rest)).length =
            b.bytes.length + (blockBytes rest).length := by
          simp [blockBytes]
        intro high hhigh
        obtain ⟨hle, hge⟩ := ih hoffsets (fun b' hb' => hblocks b' (List.mem_cons_of_mem b hb'))
          (b.de.offset + b.de.compSize + b.de.filename.length + lentrySize) (by omega)
        rw [lastReach]
        omega
  exact hreach start (Nat.le_refl start)

/-- The check goes through the blocks of an archive. -/
theorem checkEntries_blocks (calendar : Calendar) {front after : Bytes} {blocks : List Block}
    (hoffsets : Consecutive front.length blocks) (hblocks : ∀ b ∈ blocks, b.Consistent)
    {cdOffset low high : Nat} (hlow : low ≤ front.length) (hhigh : high ≤ front.length)
    (hcdOffset : front.length + (blockBytes blocks).length ≤ cdOffset)
    (hsmall : cdOffset < 2 ^ 64) :
    (checkEntries calendar (front ++ (blockBytes blocks ++ after)) cdOffset low high
      (blocks.map fun b => b.de.readBack calendar)).1 = .ok (low, lastReach high blocks) := by
  induction blocks generalizing front high with
  | nil => simp [checkEntries, lastReach]
  | cons b rest ih =>
      obtain ⟨hoffset, hoffsets⟩ := hoffsets
      have hb := hblocks b List.mem_cons_self
      have hcompSize := hb.compSize
      have hbytes : (blockBytes (b :: rest)).length =
          b.bytes.length + (blockBytes rest).length := by
        simp [blockBytes]
      have hblock : b.bytes.length = (b.de.localHeader b.force).length + b.data.length :=
        List.length_append
      have hheader := length_localHeader b.de b.force
      have hentry : lentrySize = 30 := rfl
      have hreach : (b.de.readBack calendar).reach =
          front.length + b.de.compSize + b.de.filename.length + lentrySize := by
        unfold ReadDirent.reach
        rw [stringLength_eq]
        unfold Dirent.readBack
        dsimp only
        rw [map_raw_readName hb.writable.nameEncoding, hoffset, Nat.mod_eq_of_lt (by omega)]
      have hread : direntRead calendar false true
          ((front ++ (blockBytes (b :: rest) ++ after)).drop front.length) =
          .ok (b.de.localBack calendar b.force, (b.de.localHeader b.force).length) := by
        rw [List.drop_left, blockBytes, List.flatMap_cons, Block.bytes, List.append_assoc,
          List.append_assoc]
        exact direntRead_localHeader calendar false hb.writable hb.flagsWritten hb.notMisread _
      have hfile : front ++ (blockBytes (b :: rest) ++ after) =
          (front ++ b.bytes) ++ (blockBytes rest ++ after) := by
        simp [blockBytes]
      have hfront : (front ++ b.bytes).length = front.length + b.bytes.length :=
        List.length_append
      have hhigh' : front.length + b.de.compSize + b.de.filename.length + lentrySize ≤
          (front ++ b.bytes).length := by
        omega
      have hnext := ih (hfront ▸ hoffsets) (fun b' hb' => hblocks b' (List.mem_cons_of_mem b hb'))
        (by omega) hhigh' (by omega)
      have hposition : (b.de.readBack calendar).offset = front.length := hoffset
      rw [List.map_cons, checkEntries]
      dsimp only
      have hlow' : (if front.length < low then front.length else low) = low :=
        if_neg (by omega)
      have hreached : (if high < (b.de.readBack calendar).reach then (b.de.readBack calendar).reach
          else high) = (b.de.readBack calendar).reach := if_pos (by omega)
      rw [hposition, hlow', hreached, hreach, if_neg (by omega), if_neg (by omega), hread]
      dsimp only
      rw [if_pos (headersAgree_written calendar hb.versionNeeded b.force), hfile, hnext, lastReach,
        hoffset]

theorem checkcons_of_ok {calendar : Calendar} {file : Bytes} {cd : Cdir} {low high : Nat}
    (h : (checkEntries calendar file cd.offset cd.start cd.start cd.entries).1 = .ok (low, high)) :
    (cd.checkcons calendar file).1 = .ok (min (high - low) int64Max) := by
  unfold Cdir.checkcons
  dsimp only
  rw [h]
  rfl

/-- The check of a written archive: it is plausible, and its files span from the
end of the prefix data to the last of them. -/
theorem span_writtenCdir (calendar : Calendar) {prefixdata : Bytes} {blocks : List Block}
    (hoffsets : Consecutive prefixdata.length blocks) (hblocks : ∀ b ∈ blocks, b.Consistent)
    (hlength : (archiveBytes prefixdata blocks).length ≤ int64Max) :
    (writtenCdir calendar (blocks.map Block.de) (prefixdata ++ blockBytes blocks).length).span
        calendar (archiveBytes prefixdata blocks) =
      (lastReach prefixdata.length blocks - prefixdata.length : Nat) := by
  have hsmall : int64Max < 2 ^ 64 := by decide
  have hfile : archiveBytes prefixdata blocks = prefixdata ++ (blockBytes blocks ++
      cdirBytes (blocks.map Block.de) (prefixdata ++ blockBytes blocks).length) := by
    rw [archiveBytes, List.append_assoc]
  have hdata : (prefixdata ++ blockBytes blocks).length ≤ int64Max := by
    rw [archiveBytes, List.length_append] at hlength
    omega
  have hlengths : (prefixdata ++ blockBytes blocks).length =
      prefixdata.length + (blockBytes blocks).length := List.length_append
  obtain ⟨-, hbound⟩ := lastReach_le hoffsets hblocks
  have hcheck : ((writtenCdir calendar (blocks.map Block.de)
      (prefixdata ++ blockBytes blocks).length).checkcons calendar
        (archiveBytes prefixdata blocks)).1 =
      .ok (lastReach prefixdata.length blocks - prefixdata.length) := by
    cases hblocksEq : blocks with
    | nil => simp [Cdir.checkcons, checkEntries, lastReach, Cdir.start, writtenCdir, Except.map]
    | cons b rest =>
        rw [← hblocksEq]
        have hstart : (writtenCdir calendar (blocks.map Block.de)
            (prefixdata ++ blockBytes blocks).length).start = prefixdata.length := by
          subst hblocksEq
          exact hoffsets.1
        have hentries : (checkEntries calendar (archiveBytes prefixdata blocks)
            (prefixdata ++ blockBytes blocks).length prefixdata.length prefixdata.length
            (blocks.map fun b => b.de.readBack calendar)).1 =
            .ok (prefixdata.length, lastReach prefixdata.length blocks) := by
          rw [hfile]
          exact checkEntries_blocks calendar hoffsets hblocks (Nat.le_refl _) (Nat.le_refl _)
            (Nat.le_of_eq hlengths.symm) (by omega)
        rw [checkcons_of_ok (by rw [hstart, writtenCdir, List.map_map]; exact hentries),
          Nat.min_eq_left (by omega)]
  rw [Cdir.span, hcheck, spanCode]

/-- **Archives, written and read back**: where the files of every other directory in
the last part of the archive span less than those of the archive, opening it gives
its entries. -/
theorem parseArchive_archiveBytes (calendar : Calendar) {prefixdata : Bytes} {blocks : List Block}
    (hoffsets : Consecutive prefixdata.length blocks) (hblocks : ∀ b ∈ blocks, b.Consistent)
    (hreadable : ReadableArchive (prefixdata ++ blockBytes blocks) (blocks.map Block.de))
    (hrivals : ∀ rival ∈ rivalDirs calendar (archiveBytes prefixdata blocks),
      rival.span calendar (archiveBytes prefixdata blocks) <
        (lastReach prefixdata.length blocks - prefixdata.length : Nat)) :
    parseArchive calendar (archiveBytes prefixdata blocks) =
      some (blocks.map fun b => (b.de.readBack calendar).dirent calendar) := by
  have hspan := span_writtenCdir calendar hoffsets hblocks hreadable.length
  have hparse := parseArchive_written calendar hreadable fun rival hrival => by
    rw [show (prefixdata ++ blockBytes blocks) ++ cdirBytes (blocks.map Block.de)
      (prefixdata ++ blockBytes blocks).length = archiveBytes prefixdata blocks from rfl, hspan]
    exact hrivals rival hrival
  rw [List.map_map] at hparse
  exact hparse

theorem parseArchive_archiveBytes_emptyMain :
    parseArchive firstDay (archiveBytes (ascii "#!/alley\n") [⟨emptyMain, false, []⟩]) =
      some [(emptyMain.readBack firstDay).dirent firstDay] := by
  refine parseArchive_archiveBytes firstDay ⟨rfl, trivial⟩ (fun b hb => ?_) ?_ (fun rival hrival => ?_)
  · rw [List.mem_singleton.mp hb]
    refine ⟨writable_emptyMain, rfl, ?_, by decide, rfl⟩
    rintro ⟨hneeds, -⟩
    exact absurd hneeds (by decide)
  · refine ⟨fun de hde => ?_, by decide +kernel, by decide +kernel, fun _ => by decide +kernel,
      fun _ => ?_⟩
    · rw [List.mem_singleton.mp hde]
      exact writable_emptyMain
    · unfold EndsLikeLocator
      decide +kernel
  · rw [show rivalDirs firstDay (archiveBytes (ascii "#!/alley\n") [⟨emptyMain, false, []⟩]) = [] by
      decide +kernel] at hrival
    cases hrival

end Archive
end AllvmTools
