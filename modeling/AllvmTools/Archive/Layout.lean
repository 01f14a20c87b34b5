import AllvmTools.Archive.Close

/-!
# The layout of a written archive

An archive as a list of blocks, each a local header and the data behind it,
between the prefix data and the central directory.  `Block.Holds` says which
module a block holds, `Stored` says the same of a directory entry and a file.

* `stored_of_layout` — every entry of a written directory is stored in the file.
* `getEntry_of_stored_iff` — reading a stored entry returns its module if and only if
  zlib takes the module at once.
-/

namespace AllvmTools
namespace Archive

open Library Library.Files Library.LittleEndian Library.Crc32

/-- One module of an archive: its name and its bytes. -/
structure Module where
  name : Text
  bytes : Bytes
deriving DecidableEq, Repr

/-! ## Compressed data -/

/-- The bound the archive writer reckons with for deflated data. -/
def deflateBound (n : Nat) : Nat :=
  n + (n + 16383) / 16384 * 5 + 6

/-- What is relied on of zlib: inflating undoes deflating, and a deflated stream
is never empty and no longer than the bound the archive writer reckons with. -/
structure Codec.Lawful (codec : Codec) : Prop where
  inflate_deflate : ∀ data, codec.inflate (codec.deflate data) = (data, .finished)
  deflate_ne_nil : ∀ data, codec.deflate data ≠ []
  length_deflate_le : ∀ data,
    (codec.deflate data).length ≤ deflateBound data.length

/-- The bound is what `maxSize` was computed from. -/
theorem deflateBound_lt {n : Nat} (hn : n ≤ maxSize .deflate) : deflateBound n < uint32Max := by
  simp only [maxSize] at hn
  simp only [uint32Max, deflateBound]
  omega

/-- `data` is what the writer makes of `bytes` under a method; it stores what fits one
buffer. -/
def Encodes (codec : Codec) (method : Method) (data bytes : Bytes) : Prop :=
  match method with
  | .store => data = bytes ∧ bytes.length ≤ bufSize
  | .deflate => data = codec.deflate bytes
  | _ => False

theorem Encodes.length_le {codec : Codec} (hcodec : codec.Lawful) {method : Method}
    {data bytes : Bytes} (h : Encodes codec method data bytes) :
    data.length ≤ deflateBound bytes.length := by
  unfold Encodes at h
  split at h
  · rw [h.1]
    unfold deflateBound
    omega
  · subst h
    exact hcodec.length_deflate_le bytes
  · exact h.elim

/-- What the sources of `add_data` deliver under a default method. -/
theorem encode_default (codec : Codec) {method : Method} (hmethod : method.isDefault = true)
    (bytes : Bytes) :
    ∃ actual data, codec.encode method bytes = some (actual, data) ∧
      Encodes codec actual data bytes := by
  have hactual : method.actual = .deflate := by
    unfold Method.actual
    rw [if_pos hmethod]
  unfold Codec.encode
  rw [hactual]
  dsimp only
  split
  · next hstored => exact ⟨.store, bytes, rfl, rfl, hstored.2.1⟩
  · exact ⟨.deflate, codec.deflate bytes, rfl, rfl⟩

/-! ## Blocks -/

/-- A local header with the data behind it. -/
structure Block where
  de : Dirent
  /-- The header was written with `ZIP_FL_FORCE_ZIP64`. -/
  force : Bool
  data : Bytes

namespace Block

def bytes (b : Block) : Bytes :=
  b.de.localHeader b.force ++ b.data

/-- The block holds the module. -/
structure Holds (codec : Codec) (b : Block) (m : Module) : Prop where
  filename : b.de.filename = m.name
  length_name : m.name.length ≤ 0xFFFF
  encrypted : b.de.encrypted = false
  compSize : b.de.compSize = b.data.length
  uncompSize : b.de.uncompSize = m.bytes.length
  crc : b.de.crc = crc32 0 m.bytes
  encodes : Encodes codec b.de.compMethod b.data m.bytes

end Block

/-- The blocks' bytes. -/
def blockBytes (blocks : List Block) : Bytes :=
  blocks.flatMap Block.bytes

/-- Every recorded offset is the position of the block, the first one at `start`. -/
def Consecutive : Nat → List Block → Prop
  | _, [] => True
  | start, b :: rest => b.de.offset = start ∧ Consecutive (start + b.bytes.length) rest

/-- The central records. -/
def recordBytes (des : List Dirent) : Bytes :=
  des.flatMap fun de => de.withWriteFlags.centralRecord

/-- What `write_cdir` writes at `offset`. -/
def cdirBytes (des : List Dirent) (offset : Nat) : Bytes :=
  recordBytes des ++
    cdirEnd (des.any fun de => de.needsZip64 true) des.length (recordBytes des).length offset

/-- The whole archive. -/
def archiveBytes (prefixdata : Bytes) (blocks : List Block) : Bytes :=
  prefixdata ++ blockBytes blocks ++
    cdirBytes (blocks.map Block.de) (prefixdata ++ blockBytes blocks).length

/-- The length of an archive of one module. -/
theorem length_archiveBytes_single {codec : Codec} (hcodec : codec.Lawful)
    {prefixdata : Bytes} {b : Block} {m : Module} (h : b.Holds codec m) :
    (archiveBytes prefixdata [b]).length ≤
      prefixdata.length + deflateBound m.bytes.length + 2 * m.name.length + 222 := by
  have hheader := length_localHeader b.de b.force
  have hextra := length_localExtra_le b.de b.force
  have hrecord := length_centralRecord_le b.de.withWriteFlags
  have hbound := h.encodes.length_le hcodec
  have hname : b.de.filename.length = m.name.length := by rw [h.filename]
  have hname' : b.de.withWriteFlags.filename.length = m.name.length := hname
  simp only [lentrySize] at hheader
  simp only [archiveBytes, blockBytes, cdirBytes, recordBytes, List.flatMap_cons, List.flatMap_nil,
    List.map_cons, List.map_nil, List.append_nil, List.length_append, Block.bytes]
  have hend := length_cdirEnd_le ([b.de].any fun de => de.needsZip64 true) [b.de].length
    b.de.withWriteFlags.centralRecord.length
    (prefixdata.length + ((b.de.localHeader b.force).length + b.data.length))
  omega

/-! ## Stored entries -/

/-- `bytes` stand in the file at `offset`. -/
def SitsAt (file bytes : Bytes) (offset : Nat) : Prop :=
  ∃ before after, file = before ++ (bytes ++ after) ∧ before.length = offset

/-- The file stores the module under the directory entry: at its offset there is
a block with the compressed data. -/
structure Stored (codec : Codec) (file : Bytes) (de : Dirent) (m : Module) : Prop where
  filename : de.filename = m.name
  length_name : m.name.length ≤ 0xFFFF
  encrypted : de.encrypted = false
  uncompSize : de.uncompSize = m.bytes.length
  crc : de.crc = crc32 0 m.bytes
  block : ∃ b : Block, SitsAt file b.bytes de.offset ∧ b.de.filename.length ≤ 0xFFFF ∧
    b.data.length = de.compSize ∧ Encodes codec de.compMethod b.data m.bytes

/-- The fields by which entries are found and read; the versions, the times and
the attributes are not among them. -/
structure SameEntry (de de' : Dirent) : Prop where
  filename : de.filename = de'.filename
  encrypted : de.encrypted = de'.encrypted
  compMethod : de.compMethod = de'.compMethod
  crc : de.crc = de'.crc
  compSize : de.compSize = de'.compSize
  uncompSize : de.uncompSize = de'.uncompSize
  offset : de.offset = de'.offset

theorem Stored.of_sameEntry {codec : Codec} {file : Bytes} {de de' : Dirent} {m : Module}
    (h : Stored codec file de m) (hsame : SameEntry de de') : Stored codec file de' m where
  filename := hsame.filename ▸ h.filename
  length_name := h.length_name
  encrypted := hsame.encrypted ▸ h.encrypted
  uncompSize := hsame.uncompSize ▸ h.uncompSize
  crc := hsame.crc ▸ h.crc
  block := by
    rw [← hsame.offset, ← hsame.compSize, ← hsame.compMethod]
    exact h.block

theorem Block.Holds.stored {codec : Codec} {file : Bytes} {b : Block} {m : Module}
    (h : b.Holds codec m) (hsits : SitsAt file b.bytes b.de.offset) :
    Stored codec file b.de m where
  filename := h.filename
  length_name := h.length_name
  encrypted := h.encrypted
  uncompSize := h.uncompSize
  crc := h.crc
  block := by
    refine ⟨b, hsits, ?_, h.compSize.symm, h.encodes⟩
    rw [h.filename]
    exact h.length_name

/-- The blocks of an archive are stored in it, from any front on. -/
theorem stored_of_consecutive {codec : Codec} {file front after : Bytes} {blocks : List Block}
    {modules : List Module} (hfile : file = front ++ (blockBytes blocks ++ after))
    (hoffsets : Consecutive front.length blocks)
    (hholds : List.Forall₂ (Block.Holds codec) blocks modules) :
    List.Forall₂ (Stored codec file) (blocks.map Block.de) modules := by
  induction hholds generalizing front with
  | nil => exact .nil
  | @cons b m rest ms hb hrest ih =>
      obtain ⟨hoffset, hoffsets⟩ := hoffsets
      have hsplit : file = front ++ (b.bytes ++ (blockBytes rest ++ after)) := by
        simpa [blockBytes] using hfile
      apply List.Forall₂.cons
      · exact hb.stored ⟨front, blockBytes rest ++ after, hsplit, hoffset.symm⟩
      · have hnext : (front ++ b.bytes).length = front.length + b.bytes.length :=
          List.length_append
        have hrestFile : file = (front ++ b.bytes) ++ (blockBytes rest ++ after) := by
          rw [hsplit, List.append_assoc]
        exact ih hrestFile (hnext ▸ hoffsets)

/-- Every entry of a written directory is stored in the file. -/
theorem stored_of_layout {codec : Codec} {prefixdata : Bytes} {blocks : List Block}
    {modules : List Module} (hoffsets : Consecutive prefixdata.length blocks)
    (hholds : List.Forall₂ (Block.Holds codec) blocks modules) :
    List.Forall₂ (Stored codec (archiveBytes prefixdata blocks)) (blocks.map Block.de)
      modules := by
  apply stored_of_consecutive _ hoffsets hholds
  · exact cdirBytes (blocks.map Block.de) (prefixdata ++ blockBytes blocks).length
  · simp only [archiveBytes, List.append_assoc]

/-! ## Reading back -/

/-- The data of a stored entry, and where it begins. -/
theorem Stored.data {codec : Codec} {file : Bytes} {de : Dirent} {m : Module}
    (h : Stored codec file de m) :
    ∃ size data after, direntSize file de.offset = some size ∧
      file.drop (de.offset + size) = data ++ after ∧ data.length = de.compSize ∧
      de.offset + size + de.compSize ≤ file.length ∧
      Encodes codec de.compMethod data m.bytes := by
  obtain ⟨b, ⟨before, after, hfile, hoffset⟩, hname, hlength, hencodes⟩ := h.block
  have hsize : direntSize file de.offset = some (b.de.localHeader b.force).length := by
    rw [hfile, ← hoffset, Block.bytes, List.append_assoc]
    exact direntSize_localHeader b.de b.force before (b.data ++ after) hname
  have hdrop : file.drop (de.offset + (b.de.localHeader b.force).length) = b.data ++ after := by
    have hfront : (before ++ b.de.localHeader b.force).length =
        de.offset + (b.de.localHeader b.force).length := by
      rw [List.length_append, hoffset]
    have hsplit : file = (before ++ b.de.localHeader b.force) ++ (b.data ++ after) := by
      rw [hfile, Block.bytes]
      simp only [List.append_assoc]
    rw [hsplit, ← hfront, List.drop_left]
  refine ⟨_, b.data, after, hsize, hdrop, hlength, ?_, hencodes⟩
  rw [hfile, ← hoffset, ← hlength, Block.bytes]
  simp only [List.length_append]
  omega

/-- A window over data that is there delivers just that. -/
theorem windowStream_of_append {file data after : Bytes} {start : Nat} {de : Dirent}
    (hdrop : file.drop start = data ++ after) (hlength : data.length = de.compSize) :
    windowStream file start de = ⟨data, false, some de.uncompSize, false⟩ := by
  unfold windowStream
  rw [hdrop, ← hlength, List.take_left]
  congr 1
  rw [List.length_append, decide_eq_false_iff_not]
  omega

/-- A stored entry opens, and its decoded stream is the module, for which there is room
if it has a 32-bit length. -/
theorem fopenIndex_of_stored {codec : Codec} (hcodec : codec.Lawful) {file : Bytes} {de : Dirent} {m : Module}
    (h : Stored codec file de m) (hfile : file.length ≤ int64Max) :
    ∃ layers, fopenIndex codec.inflate file de = some layers ∧ layers.decoded = m.bytes ∧
      (layers.HasRoom m.bytes.length ↔ m.bytes.length ≤ uint32Max) := by
  obtain ⟨size, data, after, hsize, hdrop, hlength, hle, hencodes⟩ := h.data
  have hopen : fopenIndex.openWindow file de = some ⟨data, false, some de.uncompSize, false⟩ := by
    have hbound : int64Max + 1 ≤ 2 ^ 64 := by decide
    unfold fopenIndex.openWindow fileGetOffset
    rw [hsize]
    dsimp only
    rw [if_neg (by omega)]
    dsimp only
    rw [if_neg (by omega), windowStream_of_append hdrop hlength]
  -- what is stored is short
  have hshort : m.bytes.length ≤ bufSize → m.bytes.length ≤ uint32Max :=
    fun hle => hle.trans (by decide)
  unfold fopenIndex
  rw [if_neg (by simp [h.encrypted])]
  by_cases hempty : de.compSize = 0
  · -- an empty buffer source stands for stored data only
    rw [if_pos hempty]
    have hnil : data = [] := List.length_eq_zero_iff.mp (hlength.trans hempty)
    unfold Encodes at hencodes
    split at hencodes
    · refine ⟨.empty, rfl, ?_, ⟨fun _ => hshort hencodes.2, fun _ h => by cases h⟩⟩
      rw [← hencodes.1, hnil]
      rfl
    · exact absurd (hencodes.symm.trans hnil) (hcodec.deflate_ne_nil m.bytes)
    · exact hencodes.elim
  · rw [if_neg hempty]
    unfold Encodes at hencodes
    split at hencodes
    · next hmethod =>
        refine ⟨.checked ⟨data, false, some de.uncompSize, false⟩, ?_, hencodes.1,
          ⟨fun _ => hshort hencodes.2, fun _ h => by cases h⟩⟩
        simp only [hmethod, Method.actual, Method.isDefault, hopen]
        rfl
    · next hmethod =>
        refine ⟨.checked ⟨m.bytes, false, some m.bytes.length, true⟩, ?_, rfl,
          ⟨fun h => h rfl, fun h _ => h⟩⟩
        simp only [hmethod, Method.actual, Method.isDefault, hopen]
        simp only [Option.map_some, inflateStream, hencodes, hcodec.inflate_deflate]
        rfl
    · exact hencodes.elim

/-- **Reading a stored entry** returns its module if and only if the length of the module
has 32 bits. -/
theorem getEntry_of_stored_iff {codec : Codec} (hcodec : codec.Lawful) {archive : ReadArchive}
    {index : Fin archive.dirents.length} {m : Module}
    (h : Stored codec archive.file (archive.dirents.get index) m)
    (hfile : archive.file.length ≤ int64Max) (hbytes : m.bytes.length ≤ int64Max) :
    archive.getEntry codec.inflate index =
        .buffer m.bytes.length (m.bytes.map some) (crc32 0 m.bytes) ↔
      m.bytes.length ≤ uint32Max := by
  obtain ⟨layers, hopen, hdecoded, hroom⟩ := fopenIndex_of_stored hcodec h hfile
  unfold ReadArchive.getEntry
  simp only [hopen]
  rw [h.uncompSize, h.crc, ← hroom]
  constructor
  · intro hread
    by_contra hnone
    have hmem := fread_getD_of_not_hasRoom (archive.dirents.get index) hnone hbytes
    rw [(EntryRead.buffer.inj hread).2.1] at hmem
    obtain ⟨b, -, hb⟩ := List.mem_map.mp hmem
    cases hb
  · intro hroom
    rw [fread_getD_of_hasRoom _ hroom hbytes, hdecoded, List.take_length]

end Archive
end AllvmTools
