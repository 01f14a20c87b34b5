import AllvmTools.Archive.LocalHeaders
import AllvmTools.Archive.Session

/-!
# Sessions, down to the bytes

Sessions on one allexe where what a session wrote is found again by
`_zip_find_central_dir` itself: the entries that are written fit their records, and
what they become when they are read fits the records of the next session.

* `ByteStep.step` — a session on bytes is a session whose entries are recovered.
* `byteSessions_roundTrip_iff` — so sessions round-trip without a word about a parser.
-/

namespace AllvmTools
namespace Archive

open Library Library.Text Library.Files Library.LittleEndian Library.Crc32 Library.Runs
open Library.Commands Library.Commands.Command

/-! ## Entries of this program -/

/-- An entry whose numbers fit the fields of a record, but for its sizes, its offset
and its method, which a close sets. -/
structure Dirent.Regular (de : Dirent) : Prop where
  filename : de.filename.length < 2 ^ 16
  noNul : 0 ∉ de.filename
  nameEncoding : de.nameEncoding = .utf8Known → guessEncoding de.filename ≠ .cp437
  versionMadeby : de.versionMadeby < 2 ^ 16
  versionNeeded : de.versionNeeded ≤ 45
  bitflags : de.bitflags < 2 ^ 16
  dosTime : de.dosTime < 2 ^ 16
  dosDate : de.dosDate < 2 ^ 16
  diskNumber : de.diskNumber = 0
  intAttrib : de.intAttrib < 2 ^ 16
  extAttrib : de.extAttrib < 2 ^ 32

namespace Dirent.Regular

variable {de : Dirent}

theorem withMethod (h : de.Regular) (method : Method) :
    Dirent.Regular { de with compMethod := method } :=
  ⟨h.filename, h.noNul, h.nameEncoding, h.versionMadeby, h.versionNeeded, h.bitflags, h.dosTime,
    h.dosDate, h.diskNumber, h.intAttrib, h.extAttrib⟩

theorem withOffset (h : de.Regular) (offset : Nat) : Dirent.Regular { de with offset := offset } :=
  ⟨h.filename, h.noNul, h.nameEncoding, h.versionMadeby, h.versionNeeded, h.bitflags, h.dosTime,
    h.dosDate, h.diskNumber, h.intAttrib, h.extAttrib⟩

theorem withBitflags (h : de.Regular) {flags : Nat} (hflags : flags < 2 ^ 16) :
    Dirent.Regular { de with bitflags := flags } :=
  ⟨h.filename, h.noNul, h.nameEncoding, h.versionMadeby, h.versionNeeded, hflags, h.dosTime,
    h.dosDate, h.diskNumber, h.intAttrib, h.extAttrib⟩

theorem withWriteFlags (h : de.Regular) : de.withWriteFlags.Regular :=
  h.withBitflags (setBit_lt (setBit_lt h.bitflags (by decide)) (by decide))

theorem preliminary (h : de.Regular) (size : Nat) : (de.preliminary size).Regular := by
  have hflags : setBit de.bitflags gpbfDataDescriptor false < 2 ^ 16 :=
    setBit_lt h.bitflags (by decide)
  exact ⟨h.filename, h.noNul, h.nameEncoding, h.versionMadeby, h.versionNeeded, hflags, h.dosTime,
    h.dosDate, h.diskNumber, h.intAttrib, h.extAttrib⟩

theorem finished (h : de.Regular) {source : Buffer} (htime : source.dosTime < 2 ^ 16)
    (hdate : source.dosDate < 2 ^ 16) (method : Method) (compSize : Nat) :
    (de.finished source method compSize).Regular := by
  have hlevel : compressionFlags method <<< 1 < 2 ^ 16 := by
    unfold compressionFlags
    split <;> decide
  exact ⟨h.filename, h.noNul, h.nameEncoding, h.versionMadeby, h.versionNeeded,
    Nat.or_lt_two_pow (setBit_lt (setBit_lt h.bitflags (by decide)) (by decide)) hlevel,
    htime, hdate, h.diskNumber, h.intAttrib, h.extAttrib⟩

theorem setVersionNeeded (h : de.Regular) (force : Bool) : (de.setVersionNeeded force).Regular := by
  refine ⟨h.filename, h.noNul, h.nameEncoding, h.versionMadeby, ?_, h.bitflags, h.dosTime,
    h.dosDate, h.diskNumber, h.intAttrib, h.extAttrib⟩
  simp only [Dirent.setVersionNeeded]
  split
  · decide
  split
  · decide
  split <;> decide

end Dirent.Regular

/-- A fresh entry with a name. -/
theorem regular_init {name str : Text} {encoding : Encoding} (hname : 0 ∉ name)
    (h : zipStringNew name = some (str, encoding)) :
    Dirent.Regular { Dirent.init with filename := str, nameEncoding := encoding } := by
  have hlength := length_zipStringNew h
  have hlt := Nat.mod_lt name.length (show 0 < 2 ^ 16 by decide)
  have hparts : 0 ∉ str ∧ (encoding = .utf8Known → guessEncoding str ≠ .cp437) := by
    have hnul : 0 ∉ name.take (name.length % 2 ^ 16) :=
      fun hmem => hname (List.mem_of_mem_take hmem)
    unfold zipStringNew at h
    dsimp only at h
    split at h
    · cases h
    · split at h
      · cases h
        exact ⟨hnul, by simp⟩
      · next hguess =>
        cases h
        exact ⟨hnul, fun _ => by rw [hguess]; decide⟩
      · cases h
  constructor <;> simp only [Dirent.init]
  case filename => omega
  case noNul => exact hparts.1
  case nameEncoding => exact hparts.2
  all_goals decide

/-- A name that is read back as UTF-8 looks like it. -/
theorem guessEncoding_readName {de : Dirent}
    (h : (de.readName.map ZipString.guess).getD .ascii = .utf8Known) :
    guessEncoding de.filename ≠ .cp437 := by
  unfold Dirent.readName at h
  split at h
  · next hnil =>
    rw [hnil, guessEncoding]
    decide
  · split at h
    · intro hguess
      rw [(expectUtf8_eq_none_iff _).mpr hguess] at h
      cases h
    · intro hguess
      simp [ZipString.guess, hguess] at h

/-- What a regular entry becomes when it is written and read. -/
theorem Dirent.Regular.readBack {calendar : Calendar} {de : Dirent} (h : de.Regular) :
    ((de.readBack calendar).dirent calendar).Regular := by
  have hname : ((de.readBack calendar).dirent calendar).filename = de.filename :=
    map_raw_readName h.nameEncoding
  have hversionMadeby := h.versionMadeby
  have hversionNeeded := h.versionNeeded
  refine ⟨?_, ?_, fun hknown => ?_, ?_, ?_, ?_, ?_, ?_, h.diskNumber, h.intAttrib, h.extAttrib⟩
  · rw [hname]
    exact h.filename
  · rw [hname]
    exact h.noNul
  · rw [hname]
    exact guessEncoding_readName hknown
  · simp only [ReadDirent.dirent, Dirent.readBack]
    split <;> omega
  · simp only [ReadDirent.dirent, Dirent.readBack]
    split <;> omega
  · exact h.withWriteFlags.bitflags
  · simp only [ReadDirent.dirent, Calendar.u2dTime]
    omega
  · simp only [ReadDirent.dirent, Calendar.u2dTime]
    omega

/-! ## What a close writes -/

/-- The times of the buffer are 16-bit ones, as `_zip_u2d_time` makes them. -/
def Buffer.Dated (buffer : Buffer) : Prop :=
  buffer.dosTime < 2 ^ 16 ∧ buffer.dosDate < 2 ^ 16

/-- An entry of an open archive from which a regular one is written. -/
structure ZipEntry.Regular (e : ZipEntry) : Prop where
  orig : ∀ o ∈ e.orig, o.Regular
  changes : ∀ c ∈ e.changes, c.dirent.Regular
  source : ∀ source ∈ e.source, source.Dated

/-- A regular entry with the flags as they are written. -/
def Dirent.Written (de : Dirent) : Prop :=
  de.Regular ∧ de.FlagsWritten

theorem Dirent.Regular.written {de : Dirent} (h : de.Regular) : de.withWriteFlags.Written :=
  ⟨h.withWriteFlags, withWriteFlags_withWriteFlags de⟩

section Writes

variable {codec : Codec} {env : Env}

theorem direntWriteLocal_yields (de : Dirent) (force : Bool) :
    Yields env (fun _ => True) (direntWriteLocal de force) fun r _ => r.1 = de.withWriteFlags := by
  refine Yields.any.next ?_
  refine Yields.any.next ?_
  refine Yields.any.next ?_
  exact Yields.pure fun _ _ => rfl

theorem addData_yields {de : Dirent} {source : Buffer} (hde : de.Regular)
    (htime : source.dosTime < 2 ^ 16) (hdate : source.dosDate < 2 ^ 16) :
    Yields env (fun _ => True) (addData codec source de) fun de' _ => de'.Written := by
  have hwrite : Yields env (fun _ => True) (writeData codec source de) fun r _ => r.1.Written := by
    refine Yields.any.bind_result ?_
    intro offstart _
    refine (direntWriteLocal_yields _ _).bind_result ?_
    rintro ⟨first, isZip64⟩ rfl
    dsimp only
    split
    · exact Yields.fail
    split
    · exact Yields.fail
    · next method data _ =>
      refine Yields.any.bind_result ?_
      intro offdata _
      refine Yields.any.next ?_
      refine Yields.any.bind_result ?_
      intro offend _
      refine Yields.any.next ?_
      refine (direntWriteLocal_yields _ _).bind_result ?_
      rintro ⟨last, isZip64'⟩ rfl
      exact Yields.pure fun _ _ => ((((hde.preliminary _).withWriteFlags).finished htime hdate
        method _).setVersionNeeded _).written
  unfold addData
  refine hwrite.bind_result ?_
  rintro ⟨last, isZip64, isZip64', offend⟩ hlast
  dsimp only
  split
  · exact Yields.fail
  · refine Yields.any.next ?_
    exact Yields.pure fun _ _ => hlast

theorem writeEntry_yields {e : ZipEntry} (he : e.Regular) :
    Yields env (fun _ => True) (writeEntry codec e) fun de _ => de.Written := by
  have hdirent : (e.changes.getD (.clone e.orig)).dirent.Regular := by
    cases hchanges : e.changes with
    | some c => exact he.changes c hchanges
    | none =>
        cases horig : e.orig with
        | some o => exact he.orig o horig
        | none => constructor <;> simp [Changes.clone, Dirent.init]
  unfold writeEntry
  generalize e.changes.getD (.clone e.orig) = changes at hdirent ⊢
  refine Yields.any.next ?_
  refine Yields.any.bind_result ?_
  intro off _
  have hoff := hdirent.withOffset off
  have hflags : setBit changes.dirent.bitflags gpbfDataDescriptor false < 2 ^ 16 :=
    setBit_lt hdirent.bitflags (by decide)
  cases hsource : e.source with
  | some source =>
      obtain ⟨htime, hdate⟩ := he.source source hsource
      exact addData_yields hoff htime hdate
  | none =>
      cases e.orig with
      | none => exact Yields.fail
      | some orig =>
          have hcopied := (hoff.withBitflags hflags).written
          refine (direntWriteLocal_yields _ _).bind_result ?_
          rintro ⟨de, isZip64⟩ rfl
          refine Yields.any.bind_result ?_
          intro offset _
          refine Yields.any.next ?_
          exact Yields.pure fun _ _ => hcopied

theorem writeEntries_yields {entries : List ZipEntry} (hentries : ∀ e ∈ entries, e.Regular) :
    Yields env (fun _ => True) (writeEntries codec entries) fun des _ =>
      ∀ de ∈ des, de.Written := by
  induction entries with
  | nil =>
      refine Yields.pure ?_
      intro _ _ de hde
      cases hde
  | cons e rest ih =>
      refine (writeEntry_yields (hentries e List.mem_cons_self)).bind_result ?_
      intro de hde
      refine (ih fun e he => hentries e (List.mem_cons_of_mem _ he)).bind_result ?_
      intro des hdes
      refine Yields.pure ?_
      intro _ _ de' hde'
      rcases List.mem_cons.mp hde' with rfl | hde'
      · exact hde
      · exact hdes de' hde'

/-- The directory that a close writes. -/
theorem written_of_zipClose {za : Zip} {w : World} (hsurvivors : za.survivors ≠ [])
    (hchanged : za.changed = true) (hentries : ∀ e ∈ za.survivors, e.Regular) {des : List Dirent}
    (h : (zipClose codec za env w).1 = some (some des)) : ∀ de ∈ des, de.Written := by
  have hdraft :
      Yields env (fun _ => True) (draft codec za) fun des _ => ∀ de ∈ des, de.Written := by
    refine Yields.any.next ?_
    refine Yields.any.next ?_
    refine (writeEntries_yields hentries).bind_result ?_
    intro des hdes
    refine Yields.any.next ?_
    exact Yields.pure fun _ _ => hdes
  rcases zipClose_eq codec hsurvivors hchanged env w with
    ⟨u, v, -, hclose, -⟩ | ⟨des', u, hrun, hclose⟩
  · rw [hclose] at h
    cases h
  · have hwritten := hdraft w trivial des' u hrun
    rw [hclose] at h
    unfold afterDraft at h
    split at h <;> cases h
    exact hwritten

end Writes

/-! ## Calls -/

theorem ZipEntry.Regular.setSource {e : ZipEntry} (h : e.Regular) {buffer : Buffer}
    (hbuffer : buffer.Dated) : (e.setSource buffer).Regular := by
  have hclone : (Changes.clone e.orig).dirent.Regular := by
    cases horig : e.orig with
    | some o => exact h.orig o horig
    | none => constructor <;> simp [Changes.clone, Dirent.init]
  have hchanges : ∀ c ∈ e.unchangeData.changes, c.dirent.Regular := by
    intro c hc
    unfold ZipEntry.unchangeData at hc
    dsimp only at hc
    split at hc
    · cases hc
    · next c' hc' =>
      split at hc
      · split at hc <;> cases hc
        exact h.changes c' hc'
      · cases hc
        exact h.changes _ hc'
  refine ⟨h.orig, fun c hc => ?_, ?_⟩
  · unfold ZipEntry.setSource at hc
    dsimp only at hc
    split at hc
    · cases hc
      apply Dirent.Regular.withMethod
      cases hold : e.unchangeData.changes with
      | none => exact hclone
      | some c => exact hchanges c hold
    · exact hchanges c hc
  · rintro _ ⟨⟩
    exact hbuffer

section Calls

variable {codec : Codec} {old : Option Bytes} {zip zip' : ZipArchive} {modules : List Module}

/-- A call keeps the entries regular. -/
theorem regular_applyOp (hrep : Represents codec old zip modules) {op : ArchiveOp}
    (hvalid : op.Valid) (hdated : op.buffer.Dated)
    (hentries : ∀ e ∈ zip.archive.entries, e.Regular) (hop : applyOp zip op = some zip') :
    ∀ e ∈ zip'.archive.entries, e.Regular := by
  obtain ⟨name, buffer, za', rfl, hadd, rfl⟩ | ⟨idx, buffer, za', rfl, hreplace, rfl⟩ :=
    applyOp_eq_some hop
  · obtain ⟨hname, hnul⟩ := hvalid.name name buffer rfl
    obtain ⟨str, encoding, hstr, rfl⟩ := fileAdd_new hrep.names hadd
    rw [if_neg hname] at hstr
    intro e he
    rcases List.mem_append.mp he with he | he
    · exact hentries e he
    · rw [List.mem_singleton.mp he]
      refine ⟨fun o ho => (by cases ho), ?_, ?_⟩
      · rintro _ ⟨⟩
        exact regular_init hnul hstr
      · rintro _ ⟨⟩
        exact hdated
  · obtain ⟨e, he, rfl⟩ := fileReplace_eq_some hreplace
    intro e' he'
    rcases List.mem_or_eq_of_mem_set he' with he' | rfl
    · exact hentries e' he'
    · exact (hentries e (List.mem_of_getElem? he)).setSource hdated

/-- The calls of a session do. -/
theorem regular_applyOps {ops : List ArchiveOp} (hrep : Represents codec old zip modules)
    (hvalid : ∀ op ∈ ops, op.Valid) (hdated : ∀ op ∈ ops, op.buffer.Dated)
    (hentries : ∀ e ∈ zip.archive.entries, e.Regular) (hops : applyOps zip ops = some zip') :
    ∀ e ∈ zip'.archive.entries, e.Regular := by
  induction ops generalizing zip modules with
  | nil =>
      cases hops
      exact hentries
  | cons op rest ih =>
      rw [applyOps] at hops
      split at hops
      · cases hops
      · next zip₁ hop =>
        have hop_valid := hvalid op List.mem_cons_self
        exact ih (hrep.applyOp hop_valid.fits hop)
          (fun op hmem => hvalid op (List.mem_cons_of_mem _ hmem))
          (fun op hmem => hdated op (List.mem_cons_of_mem _ hmem))
          (regular_applyOp hrep hop_valid (hdated op List.mem_cons_self) hentries hop) hops

/-- What is opened is regular where the entries of the file are. -/
theorem regular_openAllexe {parse : Bytes → Option (List Dirent)} {alleyPath : Text}
    {overwrite : Bool} (hparsed : ∀ bytes ∈ old, ∀ des, parse bytes = some des →
      ∀ de ∈ des, de.Regular)
    (hopen : openAllexe parse alleyPath old overwrite = some zip) :
    ∀ e ∈ zip.archive.entries, e.Regular := by
  obtain ⟨za, hza, rfl, -⟩ := openAllexe_eq_some hopen
  rcases zipOpen_cases hza with rfl | ⟨-, bytes, des, hold, -, hparse, rfl⟩
  · intro e he
    cases he
  · intro e he
    obtain ⟨de, hde, rfl⟩ := List.mem_map.mp he
    refine ⟨?_, fun c hc => (by cases hc), fun source hsource => (by cases hsource)⟩
    rintro _ ⟨⟩
    exact hparsed bytes hold des hparse de hde

end Calls

/-! ## Archives that are found -/

/-- The blocks lie behind each other. -/
theorem end_le_of_consecutive {start : Nat} {blocks : List Block} (h : Consecutive start blocks) :
    ∀ b ∈ blocks, b.de.offset + b.bytes.length ≤ start + (blockBytes blocks).length := by
  induction blocks generalizing start with
  | nil => simp
  | cons first rest ih =>
      obtain ⟨hoffset, hrest⟩ := h
      intro b hb
      rw [blockBytes, List.flatMap_cons, List.length_append]
      rcases List.mem_cons.mp hb with rfl | hb
      · omega
      · have hle := ih hrest b hb
        rw [blockBytes] at hle
        omega

/-- A written block fits its headers. -/
theorem writable_of_holds {codec : Codec} {b : Block} {m : Module} (hholds : b.Holds codec m)
    (hregular : b.de.Regular) (hsize : m.bytes.length ≤ int64Max)
    (hend : b.de.offset + b.bytes.length ≤ int64Max) : b.de.Writable := by
  have hmax : int64Max < 2 ^ 64 := by decide
  have hversion := hregular.versionNeeded
  have hdata : b.bytes.length = (b.de.localHeader b.force).length + b.data.length :=
    List.length_append
  have hcompSize := hholds.compSize
  have huncompSize := hholds.uncompSize
  have hmethod : b.de.compMethod.code = 0 ∨ b.de.compMethod.code = 8 := by
    have hencodes := hholds.encodes
    unfold Encodes at hencodes
    split at hencodes
    · next hstore => simp [hstore, Method.code]
    · next hdeflate => simp [hdeflate, Method.code]
    · exact hencodes.elim
  refine ⟨hregular.filename, hregular.noNul, hregular.nameEncoding, hregular.versionMadeby,
    by omega, hregular.bitflags, by omega, ?_, hregular.dosTime, hregular.dosDate, by omega,
    by omega, ?_, hregular.intAttrib, hregular.extAttrib, by omega⟩
  · unfold cmWinzipAes
    omega
  · rw [hregular.diskNumber]
    decide

/-- An entry is read back as it was written. -/
theorem sameEntry_readBack (calendar : Calendar) {codec : Codec} {b : Block} {m : Module}
    (hholds : b.Holds codec m) (hregular : b.de.Regular) :
    SameEntry b.de ((b.de.readBack calendar).dirent calendar) where
  filename := (map_raw_readName hregular.nameEncoding).symm
  encrypted := by
    simp [ReadDirent.dirent, Dirent.readBack, hholds.encrypted]
  compMethod := by
    have hencodes := hholds.encodes
    unfold Encodes at hencodes
    split at hencodes
    · next hstore => simp [ReadDirent.dirent, Dirent.readBack, hstore, Method.code, Method.ofCode]
    · next hdeflate =>
      simp [ReadDirent.dirent, Dirent.readBack, hdeflate, Method.code, Method.ofCode]
    · exact hencodes.elim
  crc := rfl
  compSize := rfl
  uncompSize := rfl
  offset := rfl

/-- What it takes for the directory behind `data` to be found: no record is misread;
without 64-bit end records its size fits the plain one, and what stands in front of
that one is no locator; and the directories of all other end records in the last
part of the file span less. -/
structure FoundBehind (calendar : Calendar) (data : Bytes) (des : List Dirent) : Prop where
  notMisread : ∀ de ∈ des, ¬ de.Misread
  size : isZip64Archive des data.length = false → (recordBytes des).length ≤ uint32Max
  noLocator : isZip64Archive des data.length = false → ¬ EndsLikeLocator (data ++ recordBytes des)
  rivals : ∀ rival ∈ rivalDirs calendar (data ++ cdirBytes des data.length),
    rival.span calendar (data ++ cdirBytes des data.length) <
      (writtenCdir calendar des data.length).span calendar (data ++ cdirBytes des data.length)

/-- The file ends with the directory, which is found. -/
def Findable (calendar : Calendar) (bytes : Bytes) (des : List Dirent) : Prop :=
  ∃ data, bytes = data ++ cdirBytes des data.length ∧ FoundBehind calendar data des

/-- A written archive that can be found is opened with its entries. -/
theorem parseArchive_of_findable {calendar : Calendar} {codec : Codec} {front : Bytes}
    {blocks : List Block} {modules : List Module} (hoffsets : Consecutive front.length blocks)
    (hholds : List.Forall₂ (Block.Holds codec) blocks modules)
    (hwritten : ∀ b ∈ blocks, b.de.Written) (hsizes : ∀ m ∈ modules, m.bytes.length ≤ int64Max)
    (hlength : (archiveBytes front blocks).length ≤ int64Max)
    (hfind : Findable calendar (archiveBytes front blocks) (blocks.map Block.de)) :
    parseArchive calendar (archiveBytes front blocks) =
      some ((blocks.map Block.de).map fun de => (de.readBack calendar).dirent calendar) := by
  have hinside : front.length + (blockBytes blocks).length ≤ int64Max := by
    rw [archiveBytes, List.length_append, List.length_append] at hlength
    omega
  obtain ⟨data, hbytes, hfound⟩ := hfind
  obtain rfl : front ++ blockBytes blocks = data := append_cdirBytes_inj hbytes
  have hreadable : ReadableArchive (front ++ blockBytes blocks) (blocks.map Block.de) := by
    refine ⟨fun de hde => ?_, hfound.notMisread, hlength, hfound.size, hfound.noLocator⟩
    obtain ⟨b, hb, rfl⟩ := List.mem_map.mp hde
    obtain ⟨i, hi⟩ := List.mem_iff_getElem?.mp hb
    obtain ⟨m, hm, hheld⟩ := forall₂_getElem? hholds hi
    have hend := end_le_of_consecutive hoffsets b hb
    exact writable_of_holds hheld (hwritten b hb).1 (hsizes m (List.mem_of_getElem? hm)) (by omega)
  exact parseArchive_written calendar hreadable hfound.rivals

/-! ## Sessions on bytes -/

/-- One session without I/O failures, with times as they are made, after which the
file is within the range of file offsets and what was written to it can be found. -/
structure ByteStep (codec : Codec) (calendar : Calendar) (s : State) (t : Session) (s' : State) :
    Prop where
  valid : t.Valid s.modules
  dated : ∀ op ∈ t.ops, op.buffer.Dated
  modules : s'.modules = t.model s.modules
  alleyPath : s'.alleyPath = if t.ops = [] then s.alleyPath else t.alleyPath
  runs : ∃ result, t.run codec (parseArchive calendar) s.file = some (result, s'.file) ∧
    s'.written = writtenBy s.written result s'.file ∧
    ∀ des, result = some (some des) → ∀ bytes ∈ s'.file, Findable calendar bytes des
  fits : ∀ bytes ∈ s'.file, bytes.length ≤ int64Max

/-- What holds after every session: the file holds the modules, and the entries it is
opened with are regular. -/
structure ByteInv (codec : Codec) (calendar : Calendar) (s : State) : Prop where
  inv : Inv codec (parseArchive calendar) s
  regular : ∀ bytes ∈ s.file, ∀ des, parseArchive calendar bytes = some des →
    ∀ de ∈ des, de.Regular

section Steps

variable {codec : Codec} {calendar : Calendar} {s s' : State} {t : Session}

theorem Inv.sizes_model {parse : Bytes → Option (List Dirent)} (hinv : Inv codec parse s)
    (hvalid : t.Valid s.modules) : ∀ m ∈ t.model s.modules, m.bytes.length ≤ int64Max := by
  apply length_model_le hvalid.ops
  unfold Session.opened
  split
  · intro m hm
    cases hm
  · exact hinv.sizes

/-- A close without entries writes no directory. -/
theorem zipClose_ne_directory {za : Zip} {env : Env} {w : World} (hsurvivors : za.survivors = [])
    (des : List Dirent) : (zipClose codec za env w).1 ≠ some (some des) := by
  unfold zipClose
  rw [if_pos hsurvivors]
  split
  · split <;> simp
  · simp

/-- What a session left behind: the old file or none, or an archive that is opened
with the entries that were written. -/
theorem ByteStep.outcome (hcodec : codec.Lawful) (hinv : ByteInv codec calendar s)
    (hstep : ByteStep codec calendar s t s') :
    ∃ result, t.run codec (parseArchive calendar) s.file = some (result, s'.file) ∧
      s'.written = writtenBy s.written result s'.file ∧
      ((∀ des, result ≠ some (some des)) ∧ (s'.file = s.file ∨ s'.file = none) ∨
        ∃ bytes blocks modules, result = some (some (blocks.map Block.de)) ∧
          s'.file = some bytes ∧ (∀ b ∈ blocks, b.de.Written) ∧
          List.Forall₂ (Block.Holds codec) blocks modules ∧
          parseArchive calendar bytes = some ((blocks.map Block.de).map fun de =>
            (de.readBack calendar).dirent calendar)) := by
  obtain ⟨zip, hopens⟩ := hinv.inv.open t
  obtain ⟨result, hrun, hwritten, hfind⟩ := hstep.runs
  refine ⟨result, hrun, hwritten, ?_⟩
  have hregular := regular_openAllexe hinv.regular hopens.opens
  have hfits := hstep.fits
  have hmodules := hstep.modules
  unfold Session.run at hrun
  rw [hopens.opens] at hrun
  dsimp only at hrun
  split at hrun
  · cases hrun
  next zip' hops =>
  have hpair := Option.some.inj hrun
  rw [Prod.mk.injEq] at hpair
  obtain ⟨rfl, hfile⟩ := hpair
  have hcalls := hopens.calls hstep.valid hops
  have hentries := regular_applyOps hopens.represents hstep.valid.ops hstep.dated hregular hops
  have hpending : List.Forall₂ (Pending codec (World.start s.file).file) zip'.archive.survivors
      (t.model s.modules) := hcalls.represents.survivors ▸ hcalls.represents.entries
  rw [← hcalls.represents.survivors] at hentries
  by_cases hsurvivors : zip'.archive.survivors = []
  · left
    rw [zipClose_empty hsurvivors] at hfile
    refine ⟨zipClose_ne_directory hsurvivors, ?_⟩
    split at hfile
    · exact Or.inr hfile.symm
    · exact Or.inl hfile.symm
  by_cases hchanged : zip'.archive.changed = true
  · by_cases hgrows : ∃ e ∈ zip'.archive.survivors, e.Grows
    · obtain ⟨hnone, hkept⟩ :=
        zipClose_grows hcodec hsurvivors hchanged hpending hinv.inv.fits hgrows
      rw [hkept] at hfile
      exact Or.inl ⟨by simp [hnone], Or.inl hfile.symm⟩
    · right
      push Not at hgrows
      obtain ⟨blocks, hresult, hcontent, hoffsets, hholds⟩ :=
        zipClose_calm hcodec hsurvivors hchanged hpending hinv.inv.fits hgrows
      have hbytes := hfile.symm.trans hcontent
      have hdes := written_of_zipClose hsurvivors hchanged hentries hresult
      have hblocks : ∀ b ∈ blocks, b.de.Written := fun b hb => hdes b.de (List.mem_map_of_mem hb)
      refine ⟨_, blocks, t.model s.modules, hresult, hbytes, hblocks, hholds, ?_⟩
      exact parseArchive_of_findable hoffsets hholds hblocks (hinv.inv.sizes_model hstep.valid)
        (hfits _ hbytes) (hfind _ hresult _ hbytes)
  · left
    rw [Bool.not_eq_true] at hchanged
    rw [zipClose_unchanged hsurvivors hchanged] at hfile ⊢
    exact ⟨by simp, Or.inl hfile.symm⟩

/-- What was written is recovered. -/
theorem recovers_of_holds {blocks : List Block} {modules : List Module} {bytes : Bytes}
    (hwritten : ∀ b ∈ blocks, b.de.Written)
    (hholds : List.Forall₂ (Block.Holds codec) blocks modules)
    (hparse : parseArchive calendar bytes = some ((blocks.map Block.de).map fun de =>
      (de.readBack calendar).dirent calendar)) :
    Recovers (parseArchive calendar) bytes (blocks.map Block.de) := by
  refine ⟨_, hparse, ?_⟩
  rw [List.forall₂_map_right_iff, List.forall₂_map_left_iff, List.forall₂_map_right_iff,
    List.forall₂_same]
  intro b hb
  obtain ⟨i, hi⟩ := List.mem_iff_getElem?.mp hb
  obtain ⟨m, -, hheld⟩ := forall₂_getElem? hholds hi
  exact sameEntry_readBack calendar hheld (hwritten b hb).1

/-- A session on bytes is a session whose entries are recovered. -/
theorem ByteStep.step (hcodec : codec.Lawful) (hinv : ByteInv codec calendar s)
    (hstep : ByteStep codec calendar s t s') : Step codec (parseArchive calendar) s t s' := by
  obtain ⟨result, hrun, hwritten, hcases⟩ := hstep.outcome hcodec hinv
  refine ⟨hstep.valid, hstep.modules, hstep.alleyPath, ⟨result, hrun, hwritten, ?_⟩, hstep.fits⟩
  intro des hdes bytes hbytes
  rcases hcases with ⟨hnone, -⟩ | ⟨bytes', blocks, modules, hresult, hfile, hblocks, hholds, hparse⟩
  · exact absurd hdes (hnone des)
  · rw [hresult] at hdes
    cases hdes
    rw [hfile] at hbytes
    cases hbytes
    exact recovers_of_holds hblocks hholds hparse

/-- A session on bytes that keeps the headers keeps the invariant. -/
theorem byteInv_step (hcodec : codec.Lawful) (hinv : ByteInv codec calendar s)
    (hstep : ByteStep codec calendar s t s') (hkeeps : KeepsHeaders s t) :
    ByteInv codec calendar s' := by
  refine ⟨inv_step hcodec hinv.inv (hstep.step hcodec hinv) hkeeps, ?_⟩
  obtain ⟨result, -, -, hcases⟩ := hstep.outcome hcodec hinv
  intro bytes hbytes des hdes
  rcases hcases with ⟨-, hfile | hfile⟩ |
    ⟨bytes', blocks, modules, -, hfile, hblocks, -, hparse⟩
  · rw [hfile] at hbytes
    exact hinv.regular bytes hbytes des hdes
  · rw [hfile] at hbytes
    cases hbytes
  · rw [hfile] at hbytes
    cases hbytes
    rw [hparse] at hdes
    cases hdes
    intro de hde
    rw [List.map_map] at hde
    obtain ⟨b, hb, rfl⟩ := List.mem_map.mp hde
    exact (hblocks b hb).1.readBack

theorem byteInv_start {file : Option Bytes} (hfile : file = none ∨ file = some [])
    (alleyPath : Text) : ByteInv codec calendar (State.start file alleyPath) where
  inv := inv_start hfile alleyPath
  regular := by
    rcases hfile with rfl | rfl
    · intro bytes hbytes
      cases hbytes
    · rintro _ ⟨⟩ des hdes
      cases hdes

theorem byteInv_of_run (hcodec : codec.Lawful) {file : Option Bytes}
    (hfile : file = none ∨ file = some []) {alleyPath : Text} {sessions : List Session}
    (hrun : Trace (fun s t s' => ByteStep codec calendar s t s' ∧ KeepsHeaders s t ∧
      KeepsShort s t) (State.start file alleyPath) sessions s) :
    ByteInv codec calendar s ∧ s.Short := by
  apply hrun.invariant (fun _ s => ByteInv codec calendar s ∧ s.Short)
    ⟨byteInv_start hfile alleyPath, short_start file alleyPath⟩
  rintro done s t s' ⟨hinv, -⟩ ⟨hstep, hkeeps, hshort⟩
  refine ⟨byteInv_step hcodec hinv hstep hkeeps, ?_⟩
  unfold State.Short
  rw [hstep.modules]
  exact hshort

/-- **Sessions round-trip on bytes**: in a run of sessions on one file, opened with
`_zip_find_central_dir` itself, every session leaves the archive of the modules, if
and only if every session keeps the headers and leaves no module that is longer than
what zlib takes at once. -/
theorem byteSessions_roundTrip_iff (hcodec : codec.Lawful) {file : Option Bytes}
    (hfile : file = none ∨ file = some []) {alleyPath : Text} {sessions : List Session} :
    Trace (fun s t s' => ByteStep codec calendar s t s' ∧
          RoundTrips codec (parseArchive calendar) s')
        (State.start file alleyPath) sessions s ↔
      Trace (fun s t s' => ByteStep codec calendar s t s' ∧ KeepsHeaders s t ∧ KeepsShort s t)
        (State.start file alleyPath) sessions s := by
  apply trace_congr
  intro done u t v hrun
  obtain ⟨hinv, hshort⟩ := byteInv_of_run hcodec hfile hrun
  exact and_congr_right fun hstep =>
    roundTrips_step_iff hcodec hinv.inv hshort (hstep.step hcodec hinv)

end Steps

/-! ## A run that exists -/

theorem byteStep_newAllexe :
    ByteStep storingCodec firstDay (.start none []) newAllexe
      (.after storingCodec (.start none []) newAllexe addedArchive) := by
  obtain ⟨hresult, hfile⟩ := zipClose_addedArchive
  refine ⟨valid_newAllexe, ?_, rfl, rfl, ⟨_, ?_, rfl, ?_⟩, ?_⟩
  · intro op hop
    rw [List.mem_singleton.mp hop]
    exact ⟨by decide, by decide⟩
  · have hopen : openAllexe (parseArchive firstDay) newAllexe.alleyPath (State.start none []).file
        newAllexe.overwrite = some (.fresh false (ascii "/alley")) :=
      openAllexe_fresh _ _ (Or.inr (Or.inl rfl))
    unfold Session.run
    rw [hopen]
    dsimp only
    rw [applyOps_newAllexe]
    rfl
  · intro des hdes bytes hbytes
    cases hresult.symm.trans hdes
    cases hfile.symm.trans hbytes
    have hrivals : rivalDirs firstDay (archiveBytes (shebang (ascii "/alley"))
        [⟨addedEntry, false, bitcode⟩]) = [] := by
      decide +kernel
    refine ⟨_, rfl, ?_, fun _ => by decide +kernel, fun _ => ?_, fun rival hrival => ?_⟩
    · decide +kernel
    · unfold EndsLikeLocator
      decide +kernel
    · change rival ∈ rivalDirs firstDay (archiveBytes _ _) at hrival
      rw [hrivals] at hrival
      cases hrival
  · intro bytes hbytes
    cases hfile.symm.trans hbytes
    decide +kernel

theorem byteSessions_roundTrip_iff_newAllexe :
    ∃ s, Trace (fun s t s' => ByteStep storingCodec firstDay s t s' ∧
        RoundTrips storingCodec (parseArchive firstDay) s')
      (.start none []) [newAllexe] s ∧ s.modules = [⟨allexeMain, bitcode⟩] := by
  refine ⟨addedState, ?_, rfl⟩
  exact (byteSessions_roundTrip_iff storingCodec_lawful (Or.inl rfl)).mpr
    (Trace.nil.snoc ⟨byteStep_newAllexe, keepsHeaders_newAllexe, keepsShort_newAllexe⟩)

end Archive
end AllvmTools
