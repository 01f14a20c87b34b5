import AllvmTools.Archive.DirentRead

/-!
# Finding the central directory

`_zip_find_central_dir`: every end record in the last part of the file is tried,
`_zip_read_cdir` reads the directory it announces, and of several directories the
one whose files span most of the archive is taken, as `_zip_checkcons` reckons it.
-/

namespace AllvmTools
namespace Archive

open Library Library.Text Library.Files Library.LittleEndian
open Library.Leaving.Program Library.Reader

/-! ## End records -/

/-- `EOCDLEN`. -/
def eocdLen : Nat := 22

/-- `EOCD64LOCLEN`. -/
def eocd64LocLen : Nat := 20

/-- `EOCD64LEN`. -/
def eocd64Len : Nat := 56

/-- `CDBUFSIZE`: the longest comment, an end record, and a locator. -/
def cdBufSize : Nat := 65536 + eocdLen + eocd64LocLen

def eocdMagic : Bytes := [0x50, 0x4B, 5, 6]
def eocd64LocMagic : Bytes := [0x50, 0x4B, 6, 7]
def eocd64Magic : Bytes := [0x50, 0x4B, 6, 6]

/-- The size of `struct zip_entry`. -/
def sizeofZipEntry : Nat := 32

/-- The new number of entries after `_zip_cdir_grow`; memory itself does not run out. -/
def cdirGrow (nentry additional : Nat) : Except ZipError Nat :=
  if additional = 0 then
    .ok nentry
  else
    let newAlloc := (nentry + additional) % 2 ^ 64
    if newAlloc < additional ∨ (2 ^ 64 - 1) / sizeofZipEntry < newAlloc then
      .error .memory
    else
      .ok newAlloc

/-- What an end record says of the directory. -/
structure EndRecord where
  nentry : Nat
  size : Nat
  offset : Nat
  isZip64 : Bool
deriving DecidableEq, Repr

/-- `_zip_cdir_new` for an end record. -/
def EndRecord.allocate (r : EndRecord) : Reader ZipError EndRecord :=
  match cdirGrow 0 r.nentry with
  | .error e => leave e
  | .ok _ => pure r

/-- `_zip_read_eocd`, at the magic. -/
def readEocd (bufOffset eocdOffset : Nat) : Reader ZipError EndRecord := do
  ensure (decide (eocdLen ≤ (← left))) .incons
  let _ ← bytes 4
  let disks ← number 4
  ensure (decide (disks = 0)) .multidisk
  let i ← number 2
  let nentry ← number 2
  ensure (decide (nentry = i)) .nozip
  let size ← number 4
  let offset ← number 4
  ensure (decide (offset ≤ (offset + size) % 2 ^ 64)) .seek
  ensure (decide (offset + size ≤ bufOffset + eocdOffset)) .incons
  EndRecord.allocate ⟨nentry, size, offset, false⟩

/-- The end record itself in `_zip_read_eocd64`; `numDisks` and `eocdDisk` are
those of the locator, `eocdOffset` is the position in the file. -/
def readEocd64Record (bufOffset eocdOffset numDisks eocdDisk : Nat) :
    Reader ZipError EndRecord := do
  let magic ← bytes 4
  ensure (decide (magic = some eocd64Magic)) .incons
  let _ ← number 8
  let _ ← bytes 4
  let numDisks64 ← number 4
  let eocdDisk64 ← number 4
  let numDisks := if numDisks = 0xFFFF then numDisks64 else numDisks
  let eocdDisk := if eocdDisk = 0xFFFF then eocdDisk64 else eocdDisk
  ensure (decide (numDisks = 0 ∧ eocdDisk = 0)) .multidisk
  let nentry ← number 8
  let i ← number 8
  ensure (decide (nentry = i)) .multidisk
  let size ← number 8
  let offset ← number 8
  let ok ← isOk
  ensure ok .internal
  ensure (decide (offset ≤ int64Max ∧ offset ≤ (offset + size) % 2 ^ 64)) .seek
  ensure (decide ((offset + size) % 2 ^ 64 ≤ bufOffset + eocdOffset)) .incons
  EndRecord.allocate ⟨nentry, size, offset, true⟩

/-- The locator in `_zip_read_eocd64`: the position of the end record, and its
two numbers of disks. -/
def readEocd64Locator (bufOffset locatorOffset : Nat) : Reader ZipError (Nat × Nat × Nat) := do
  let _ ← bytes 4
  let numDisks ← number 2
  let eocdDisk ← number 2
  let eocdOffset ← number 8
  ensure (decide (eocdOffset ≤ int64Max)) .seek
  ensure (decide (eocdOffset + eocd64Len ≤ locatorOffset + bufOffset)) .incons
  return (eocdOffset, numDisks, eocdDisk)

/-- `_zip_read_eocd64`: the end record is looked up in the buffer or in the file. -/
def readEocd64 (file : Bytes) (bufOffset : Nat) (buffer : ByteCursor) (locatorOffset : Nat) :
    Except ZipError EndRecord :=
  match (readEocd64Locator bufOffset locatorOffset (buffer.setOffset locatorOffset)).1 with
  | .error e => .error e
  | .ok (eocdOffset, numDisks, eocdDisk) =>
      let record := readEocd64Record bufOffset eocdOffset numDisks eocdDisk
      if bufOffset ≤ eocdOffset ∧ eocdOffset + eocd64Len ≤ bufOffset + buffer.data.length then
        (record (buffer.setOffset (eocdOffset - bufOffset))).1
      else if (file.drop eocdOffset).length < eocd64Len then
        .error .eof
      else
        (record (.new ((file.drop eocdOffset).take eocd64Len))).1

/-! ## The directory -/

/-- `struct zip_cdir`. -/
structure Cdir where
  entries : List ReadDirent
  size : Nat
  offset : Nat
  comment : Option ZipString
  isZip64 : Bool
deriving DecidableEq, Repr

/-- The loop of `_zip_read_cdir` from entry `i` on: the entries, the number of
entries it came to reckon with, and what is left of the size.  Entries are read
from `bytes`; every one takes some of them, so their number is enough fuel. -/
def readEntries (calendar : Calendar) (fromBuffer isZip64 : Bool) :
    Nat → Nat → Nat → Nat → Bytes → Except ZipError (List ReadDirent × Nat × Nat)
  | 0, _, _, _, _ => .error .internal
  | fuel + 1, i, nentry, left, bytes =>
      if left = 0 then
        .ok ([], nentry, 0)
      -- the number of entries may have been stored modulo 0x10000
      else if i = nentry ∧ (isZip64 = true ∨ left < cdEntrySize) then
        .ok ([], nentry, left)
      else
        let grown := decide (i = nentry)
        match (if grown then cdirGrow nentry 0x10000 else .ok nentry) with
        | .error e => .error e
        | .ok nentry =>
            match direntRead calendar fromBuffer false bytes with
            | .error e => .error (if grown = true ∧ e = .nozip then .incons else e)
            | .ok (de, n) =>
                match readEntries calendar fromBuffer isZip64 fuel (i + 1) nentry
                    ((left + (2 ^ 64 - n)) % 2 ^ 64) (bytes.drop n) with
                | .error e => .error e
                | .ok (entries, nentry, left) => .ok (de :: entries, nentry, left)

/-- The comment of the archive. -/
def readArchiveComment (buffer : ByteCursor) (eocdOffset commentLen : Nat) :
    Except ZipError (Option ZipString) :=
  if commentLen = 0 then
    .ok none
  else
    match ((buffer.setOffset (eocdOffset + eocdLen)).get commentLen).1 with
    | none => .error .incons
    | some raw => .ok (some ⟨raw, none⟩)

/-- The entries of `_zip_read_cdir`: those of a directory that lies in the buffer
are read from there. -/
def EndRecord.readDirectory (calendar : Calendar) (file : Bytes) (bufOffset : Nat)
    (buffer : ByteCursor) (r : EndRecord) : Except ZipError (List ReadDirent × Nat × Nat) :=
  if bufOffset ≤ r.offset then
    match ((buffer.setOffset (r.offset - bufOffset)).get r.size).1 with
    | none => .error .incons
    | some data => readEntries calendar true r.isZip64 (data.length + 1) 0 r.nentry r.size data
  else
    readEntries calendar false r.isZip64 (file.length + 1) 0 r.nentry r.size
      (file.drop r.offset)

/-- The end record of `_zip_read_cdir`: with a locator in front of it, the 64-bit one. -/
def readEndRecord (file : Bytes) (bufOffset : Nat) (buffer : ByteCursor) (eocdOffset : Nat) :
    Except ZipError EndRecord :=
  if eocd64LocLen ≤ eocdOffset ∧
      (buffer.data.drop (eocdOffset - eocd64LocLen)).take 4 = eocd64LocMagic then
    readEocd64 file bufOffset buffer (eocdOffset - eocd64LocLen)
  else
    (readEocd bufOffset eocdOffset (buffer.setOffset eocdOffset)).1

/-- An error unless a condition holds. -/
def demand (cond : Bool) (e : ZipError) : Except ZipError Unit :=
  if cond then .ok () else .error e

/-- `_zip_read_cdir`, for the end record at `eocdOffset` of the buffer. -/
def readCdir (calendar : Calendar) (file : Bytes) (bufOffset : Nat) (buffer : ByteCursor)
    (eocdOffset : Nat) : Except ZipError Cdir := do
  let b := buffer.setOffset eocdOffset
  demand (decide (eocdLen ≤ b.left)) .nozip
  demand (decide ((b.get 4).1 = some eocdMagic)) .nozip
  let r ← readEndRecord file bufOffset buffer eocdOffset
  demand (decide (r.offset + r.size ≤ bufOffset + eocdOffset)) .incons
  let commentLen := ((buffer.setOffset (eocdOffset + 20)).getLE 2).1
  let comment ← readArchiveComment buffer eocdOffset commentLen
  let (entries, nentry, left) ← r.readDirectory calendar file bufOffset buffer
  demand (decide (entries.length = nentry ∧ left = 0)) .incons
  return ⟨entries, r.size, r.offset, comment, r.isZip64⟩

/-! ## Plausibility -/

/-- `_zip_headercomp` says that a central entry and a local header agree. -/
def headersAgree (central loc : ReadDirent) : Bool :=
  decide (loc.versionNeeded ≤ central.versionNeeded) &&
  decide (central.compMethod = loc.compMethod) &&
  decide (central.lastMod = loc.lastMod) &&
  stringEqual central.filename loc.filename &&
  ((decide (central.crc = loc.crc) && decide (central.compSize = loc.compSize) &&
      decide (central.uncompSize = loc.uncompSize)) ||
    (hasBit loc.bitflags gpbfDataDescriptor && decide (loc.crc = 0) &&
      decide (loc.compSize = 0) && decide (loc.uncompSize = 0)))

/-- Where the data of an entry ends at the earliest, in 64 bits. -/
def ReadDirent.reach (de : ReadDirent) : Nat :=
  (de.offset + de.compSize + stringLength de.filename + lentrySize) % 2 ^ 64

/-- The loop of `_zip_checkcons` over the rest of the entries: the lowest and the
highest position, and the entries with the extra fields of their local headers. -/
def checkEntries (calendar : Calendar) (file : Bytes) (cdOffset : Nat) :
    Nat → Nat → List ReadDirent → Except ZipError (Nat × Nat) × List ReadDirent
  | low, high, [] => (.ok (low, high), [])
  | low, high, de :: rest =>
      let low := if de.offset < low then de.offset else low
      if cdOffset < low then
        (.error .nozip, de :: rest)
      else
        let high := if high < de.reach then de.reach else high
        if cdOffset < high then
          (.error .nozip, de :: rest)
        else
          match direntRead calendar false true (file.drop de.offset) with
          | .error e => (.error e, de :: rest)
          | .ok (loc, _) =>
              if headersAgree de loc then
                let (result, rest) := checkEntries calendar file cdOffset low high rest
                (result, { de with
                  extraFields := efMerge de.extraFields loc.extraFields
                  localExtraFieldsRead := true } :: rest)
              else
                (.error .incons, de :: rest)

/-- The position of the first entry, with which the check begins. -/
def Cdir.start (cd : Cdir) : Nat :=
  match cd.entries with
  | [] => 0
  | de :: _ => de.offset

/-- `_zip_checkcons`: how far the files of the directory span, or why it is not
plausible; with the directory, whose extra fields may have changed. -/
def Cdir.checkcons (calendar : Calendar) (file : Bytes) (cd : Cdir) :
    Except ZipError Nat × Cdir :=
  let (result, entries) := checkEntries calendar file cd.offset cd.start cd.start cd.entries
  (result.map fun (low, high) => min (high - low) int64Max, { cd with entries := entries })

/-- The value of `_zip_checkcons` as it is returned. -/
def spanCode : Except ZipError Nat → Int
  | .error _ => -1
  | .ok span => span

/-- The error that is left behind. -/
def lastError (error : ZipError) : Except ZipError Nat → ZipError
  | .error e => e
  | .ok _ => error

/-! ## The search -/

/-- `_zip_memmem`: the first position of `little` in the first `biglen` bytes. -/
def zipMemmem (big : Bytes) (biglen : Nat) (little : Bytes) : Option Nat :=
  if biglen < little.length ∨ little.length = 0 then
    none
  else
    (List.range (biglen - little.length + 1)).find? fun p =>
      decide ((big.drop p).take little.length = little)

/-- The variables of the search loop. -/
structure Search where
  best : Int
  cdir : Option Cdir
  error : ZipError
deriving DecidableEq, Repr

/-- A directory that was read, in the search loop. -/
def Search.consider (calendar : Calendar) (file : Bytes) (s : Search) (cdirnew : Cdir) : Search :=
  match s.cdir with
  | none => { s with best := 0, cdir := some cdirnew }
  | some cdir =>
      let (best, cdir, error) :=
        if s.best ≤ 0 then
          let (result, cdir) := cdir.checkcons calendar file
          (spanCode result, cdir, lastError s.error result)
        else
          (s.best, cdir, s.error)
      let (result, cdirnew) := cdirnew.checkcons calendar file
      let error := lastError error result
      if best < spanCode result then
        ⟨spanCode result, some cdirnew, error⟩
      else
        ⟨best, some cdir, error⟩

/-- One turn of the search loop. -/
def Search.step (calendar : Calendar) (file : Bytes) (s : Search)
    (cdirnew : Except ZipError Cdir) : Search :=
  match cdirnew with
  | .error e => { s with error := e }
  | .ok cdirnew => s.consider calendar file cdirnew

/-- The next end record from a position of the buffer on, as far behind it. -/
def nextEndRecord (data : Bytes) (pos : Nat) : Option Nat :=
  zipMemmem (data.drop pos) (data.length - pos - (eocdLen - 4)) eocdMagic

/-- The search loop from a position on; `next` finds the next end record, and `turn`
is what is done there.  Every turn moves on, so the length of the buffer is enough
fuel. -/
def searchLoop (next : Nat → Option Nat) (turn : Search → Nat → Search) :
    Nat → Nat → Search → Search
  | 0, _, s => s
  | fuel + 1, pos, s =>
      match next pos with
      | none => s
      | some p => searchLoop next turn fuel (pos + p + 1) (turn s (pos + p))

/-- Where the buffer of `_zip_find_central_dir` begins in the file. -/
def bufferOffset (file : Bytes) : Nat :=
  file.length - min file.length cdBufSize

/-- Where the search begins in the buffer: behind the place for a locator. -/
def searchStart (file : Bytes) : Nat :=
  if cdBufSize ≤ min file.length cdBufSize then eocd64LocLen else 0

/-- `_zip_find_central_dir`. -/
def findCentralDir (calendar : Calendar) (file : Bytes) : Except ZipError Cdir :=
  if file.length < eocdLen then
    .error .nozip
  else
    let bufOffset := bufferOffset file
    let buffer := ByteCursor.new (file.drop bufOffset)
    let turn := fun s eocdOffset =>
      Search.step calendar file s (readCdir calendar file bufOffset buffer eocdOffset)
    let s := searchLoop (nextEndRecord buffer.data) turn buffer.data.length (searchStart file)
      ⟨-1, none, .nozip⟩
    if s.best < 0 then
      .error s.error
    else
      match s.cdir with
      | none => .error s.error
      | some cdir => .ok cdir

/-- The entries of the archive in a file, as they are in memory after `zip_open`. -/
def parseArchive (calendar : Calendar) (file : Bytes) : Option (List Dirent) :=
  (findCentralDir calendar file).toOption.map fun cd =>
    cd.entries.map (ReadDirent.dirent calendar)

end Archive
end AllvmTools
