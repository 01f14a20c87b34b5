import AllvmTools.Archive.NameTable
import AllvmTools.Archive.Session

/-!
# Reading an open archive

`getEntry`, `getEntryCRC` and `getEntryUncompressedSize` on an archive that may
have changed since it was opened, and the two ways to open an allexe with what
happens to it afterwards.

* `getEntry_ofDirectory` — on an archive as it was opened, these are the reads of
  its directory.
* `openForReading_leaves_world` — opening for reading, any reads, and the
  destructor leave the file system as it was.
* `existing_archive_is_kept` — so does a session that would add a main module to
  what is there already.
-/

namespace AllvmTools
namespace Archive

open Library Library.Text Library.Files

/-! ## Reads -/

/-- What is used of a `zip_stat_t`. -/
structure ZipStat where
  size : Nat
  crc : UInt32
deriving DecidableEq, Repr

/-- `_zip_get_dirent` of the entry as it is now. -/
def ZipEntry.getDirent (e : ZipEntry) : Option Dirent :=
  match e.changes with
  | some c => some c.dirent
  | none => if e.deleted then none else e.orig

/-- `zip_stat_index`.  New data is a buffer source, which knows its size; the CRC
stays at the zero of `zip_stat_init`. -/
def Zip.statIndex (za : Zip) (idx : Nat) : Option ZipStat :=
  match za.entries[idx]? with
  | none => none
  | some e =>
      match e.getDirent with
      | none => none
      | some de =>
          match e.source with
          | some source => some ⟨source.bytes.length, 0⟩
          | none => some ⟨de.uncompSize, de.crc⟩

/-- `zip_fopen_index`: `_zip_source_zip_new` refuses an entry with new data, and
reads the entry of the file otherwise. -/
def Zip.fopenIndex (inflate : Inflate) (file : Bytes) (za : Zip) (idx : Nat) :
    Option (Dirent × Layers) :=
  match za.entries[idx]? with
  | none => none
  | some e =>
      if e.source.isSome || e.deleted then none
      else
        match e.orig with
        | none => none
        | some o => (Archive.fopenIndex inflate file o).map fun layers => (o, layers)

namespace ZipArchive

/-- `ZipArchive::getEntryCRC`; `none` where `statinfo` was never set. -/
def getEntryCRC (zip : ZipArchive) (index : Nat) : Option UInt32 :=
  (zip.archive.statIndex index).map ZipStat.crc

/-- `ZipArchive::getEntryUncompressedSize`; `none` where `statinfo` was never set. -/
def getEntryUncompressedSize (zip : ZipArchive) (index : Nat) : Option Nat :=
  (zip.archive.statIndex index).map ZipStat.size

/-- `ZipArchive::getEntry`; `none` where `statinfo` was never set. -/
def getEntry (inflate : Inflate) (file : Bytes) (zip : ZipArchive) (index : Nat) :
    Option EntryRead :=
  (zip.archive.statIndex index).map fun st =>
    match zip.archive.fopenIndex inflate file index with
    | none => .nullDereference
    | some (de, layers) => .buffer st.size ((fread de layers st.size).getD []) st.crc

end ZipArchive

section OfDirectory

variable {dirents : List Dirent} {alleyPath : Text} {file : Bytes}

theorem getElem?_ofDirectory (index : Nat) :
    (ZipArchive.ofDirectory dirents alleyPath).archive.entries[index]? =
      (dirents[index]?).map fun de => ⟨some de, none, none, false⟩ :=
  List.getElem?_map

/-- An archive as it was opened is read through its directory. -/
theorem getEntry_ofDirectory (inflate : Inflate) (index : Fin dirents.length) :
    (ZipArchive.ofDirectory dirents alleyPath).getEntry inflate file index =
        some ((ReadArchive.mk file dirents).getEntry inflate index) ∧
      (ZipArchive.ofDirectory dirents alleyPath).getEntryUncompressedSize index =
        some ((ReadArchive.mk file dirents).getEntryUncompressedSize index) ∧
      (ZipArchive.ofDirectory dirents alleyPath).getEntryCRC index =
        some ((ReadArchive.mk file dirents).getEntryCRC index) := by
  have hentry : (ZipArchive.ofDirectory dirents alleyPath).archive.entries[index.val]? =
      some ⟨some dirents[index], none, none, false⟩ := by
    rw [getElem?_ofDirectory, List.getElem?_eq_getElem index.isLt]
    rfl
  have hstat : (ZipArchive.ofDirectory dirents alleyPath).archive.statIndex index =
      some ⟨dirents[index].uncompSize, dirents[index].crc⟩ := by
    unfold Zip.statIndex
    rw [hentry]
    rfl
  unfold ZipArchive.getEntry ZipArchive.getEntryUncompressedSize ZipArchive.getEntryCRC
  rw [hstat]
  refine ⟨?_, rfl, rfl⟩
  unfold Zip.fopenIndex ReadArchive.getEntry
  rw [hentry]
  dsimp only [Option.isSome_none, Bool.or_false, Bool.false_eq_true, if_false, List.get_eq_getElem]
  cases Archive.fopenIndex inflate file dirents[index] with
  | none => rfl
  | some layers => rfl

end OfDirectory

/-! ## The reading calls of an allexe -/

/-- The calls that only read. -/
inductive ReadCall where
  /-- `Allexe::getModule`, up to the parsing of what it read. -/
  | getModule (idx : Nat)
  | getModuleBuffer (idx : Nat)
  | getModuleName (idx : Nat)
  | getModuleCRC (idx : Nat)
  | getModuleSize (idx : Nat)
deriving DecidableEq, Repr

/-- What becomes of a reading call. -/
inductive ReadResult where
  /-- The assertion on the index. -/
  | aborted
  | buffer (read : Option EntryRead)
  | name (name : Text)
  | crc (crc : Option UInt32)
  | size (size : Option Nat)
deriving DecidableEq, Repr

def ReadCall.idx : ReadCall → Nat
  | getModule idx => idx
  | getModuleBuffer idx => idx
  | getModuleName idx => idx
  | getModuleCRC idx => idx
  | getModuleSize idx => idx

/-- A reading call on an archive that was opened from a file. -/
def ReadCall.result (inflate : Inflate) (file : Bytes) (zip : ZipArchive) (call : ReadCall) :
    ReadResult :=
  if zip.files.length ≤ call.idx then
    .aborted
  else
    match call with
    | getModule idx => .buffer (zip.getEntry inflate file idx)
    | getModuleBuffer idx => .buffer (zip.getEntry inflate file idx)
    | getModuleName idx => .name (zip.files.getD idx [])
    | getModuleCRC idx => .crc (zip.getEntryCRC idx)
    | getModuleSize idx => .size (zip.getEntryUncompressedSize idx)

/-- The process goes on after a call. -/
def ReadResult.returns : ReadResult → Bool
  | aborted => false
  | buffer (some .nullDereference) => false
  | _ => true

/-- Calls one after the other, up to one that ends the process; with whether none
did. -/
def readResults (inflate : Inflate) (file : Bytes) (zip : ZipArchive) :
    List ReadCall → List ReadResult × Bool
  | [] => ([], true)
  | call :: rest =>
      let result := call.result inflate file zip
      if result.returns then
        let (results, lives) := readResults inflate file zip rest
        (result :: results, lives)
      else
        ([result], false)

/-! ## Opening, and what is closed afterwards -/

/-- How an opening ends. -/
inductive OpenOutcome where
  /-- `zip_open` fails: there is no archive. -/
  | noArchive
  /-- An error, after which the archive goes out of scope. -/
  | refused (zip : ZipArchive)
  | opened (zip : ZipArchive)

/-- `Allexe::open`, with the archive it leaves behind. -/
def openOutcome (parse : Bytes → Option (List Dirent)) (alleyPath : Text) (file : Option Bytes)
    (overwrite : Bool) : OpenOutcome :=
  match ZipArchive.openZip parse file overwrite with
  | none => .noArchive
  | some zip =>
      let zip := { zip with
        archive := { zip.archive with prefixdata := some (shebang alleyPath) } }
      match zip.files with
      | [] => .opened zip
      | first :: _ => if first = allexeMain then .opened zip else .refused zip

/-- `Allexe::openForReading`, with the archive it leaves behind. -/
def readingOutcome (parse : Bytes → Option (List Dirent)) (alleyPath : Text)
    (file : Option Bytes) : OpenOutcome :=
  match openOutcome parse alleyPath file false with
  | .opened zip => if zip.files = [] then .refused zip else .opened zip
  | outcome => outcome

namespace OpenOutcome

/-- What the caller gets. -/
def value : OpenOutcome → Option ZipArchive
  | opened zip => some zip
  | _ => none

end OpenOutcome

/-- `ZipArchive::~ZipArchive`, which does not look at the result. -/
def destroy (codec : Codec) (env : Env) (w : World) (zip : ZipArchive) : World :=
  (zipClose codec zip.archive env w).2

section Outcomes

variable {parse : Bytes → Option (List Dirent)} {alleyPath : Text} {file : Option Bytes}
  {overwrite : Bool} {zip : ZipArchive}

/-- The outcome is what `Allexe::open` returns. -/
theorem value_openOutcome (parse : Bytes → Option (List Dirent)) (alleyPath : Text)
    (file : Option Bytes) (overwrite : Bool) :
    (openOutcome parse alleyPath file overwrite).value =
      openAllexe parse alleyPath file overwrite := by
  unfold openOutcome openAllexe
  cases ZipArchive.openZip parse file overwrite with
  | none => rfl
  | some zip =>
      dsimp only
      cases zip.files with
      | nil => rfl
      | cons first rest =>
          dsimp only
          by_cases hmain : first = allexeMain
          · rw [if_pos hmain, if_pos hmain]
            rfl
          · rw [if_neg hmain, if_neg hmain]
            rfl

/-- The outcome is what `Allexe::openForReading` returns. -/
theorem value_readingOutcome (parse : Bytes → Option (List Dirent)) (alleyPath : Text)
    (file : Option Bytes) :
    (readingOutcome parse alleyPath file).value = openForReading parse alleyPath file := by
  unfold readingOutcome openForReading
  rw [← value_openOutcome]
  cases openOutcome parse alleyPath file false with
  | noArchive => rfl
  | refused zip => rfl
  | opened zip =>
      show (if zip.files = [] then OpenOutcome.refused zip else .opened zip).value =
        if zip.files = [] then none else some zip
      by_cases hempty : zip.files = []
      · rw [if_pos hempty, if_pos hempty]
        rfl
      · rw [if_neg hempty, if_neg hempty]
        rfl

/-- An archive that was opened, under any prefix data, has no changes. -/
theorem openZip_unchanged (h : ZipArchive.openZip parse file overwrite = some zip) :
    zip.archive.changed = false ∧ zip.archive.truncate = overwrite := by
  unfold ZipArchive.openZip at h
  obtain ⟨za, hza, rfl⟩ := Option.map_eq_some_iff.mp h
  rcases zipOpen_cases hza with rfl | ⟨rfl, bytes, dirents, -, -, -, rfl⟩
  · exact ⟨rfl, rfl⟩
  · refine ⟨?_, rfl⟩
    -- the entries of a directory come without changes
    apply List.any_eq_false.mpr
    intro e he
    obtain ⟨de, -, rfl⟩ := List.mem_map.mp he
    exact Bool.false_ne_true

/-- The first of the names read from a directory is in the table. -/
theorem names_ofDirectory_head (de : Dirent) (rest : List Dirent) (alleyPath : Text) :
    (ZipArchive.ofDirectory (de :: rest) alleyPath).archive.names de.text = some 0 := by
  show nameTable 0 ((de :: rest).map Dirent.text) (fun _ => none) de.text = some 0
  rw [List.map_cons, nameTable, if_neg (by simp)]
  apply nameTable_of_some
  rw [Function.update_self]

theorem openAllexe_consistent (h : openAllexe parse alleyPath file overwrite = some zip) :
    zip.archive.Consistent := by
  obtain ⟨za, hza, rfl, -⟩ := openAllexe_eq_some h
  have hopen : ZipArchive.openZip parse file overwrite =
      some ⟨za, za.entries.map ZipEntry.text⟩ := by
    rw [ZipArchive.openZip, hza]
    rfl
  obtain ⟨hkept, hnames⟩ := openZip_consistent hopen
  exact ⟨hkept, hnames⟩

/-- The archive of an outcome, in the hands of the caller or not. -/
def OpenOutcome.Holds (outcome : OpenOutcome) (zip : ZipArchive) : Prop :=
  outcome = .opened zip ∨ outcome = .refused zip

theorem openOutcome_unchanged (h : (openOutcome parse alleyPath file overwrite).Holds zip) :
    zip.archive.changed = false ∧ zip.archive.truncate = overwrite := by
  unfold openOutcome at h
  cases hopen : ZipArchive.openZip parse file overwrite with
  | none =>
      rw [hopen] at h
      rcases h with h | h
      · cases h
      · cases h
  | some zip₀ =>
      rw [hopen] at h
      -- given out or refused, only its prefix data was set
      have hzip : zip = { zip₀ with
          archive := { zip₀.archive with prefixdata := some (shebang alleyPath) } } := by
        dsimp only at h
        split at h
        · rcases h with h | h
          · exact (OpenOutcome.opened.inj h).symm
          · cases h
        · split at h
          · rcases h with h | h
            · exact (OpenOutcome.opened.inj h).symm
            · cases h
          · rcases h with h | h
            · cases h
            · exact (OpenOutcome.refused.inj h).symm
      subst hzip
      exact @openZip_unchanged parse file overwrite zip₀ hopen

theorem readingOutcome_unchanged (h : (readingOutcome parse alleyPath file).Holds zip) :
    zip.archive.changed = false ∧ zip.archive.truncate = false := by
  apply @openOutcome_unchanged parse alleyPath file false
  unfold readingOutcome at h
  cases houtcome : openOutcome parse alleyPath file false with
  | noArchive =>
      rw [houtcome] at h
      rcases h with h | h
      · cases h
      · cases h
  | refused zip₀ =>
      rw [houtcome] at h
      exact h
  | opened zip₀ =>
      rw [houtcome] at h
      dsimp only at h
      split at h
      · rcases h with h | h
        · cases h
        · exact Or.inl (by rw [OpenOutcome.refused.inj h])
      · exact h

/-- The destructor of an archive without changes does nothing. -/
theorem destroy_unchanged (codec : Codec) (env : Env) (w : World)
    (hchanged : zip.archive.changed = false) (htruncate : zip.archive.truncate = false) :
    destroy codec env w zip = w := by
  unfold destroy zipClose
  rw [hchanged, htruncate]
  split
  · rfl
  · rfl

end Outcomes

/-! ## Opening for reading -/

/-- `Allexe::openForReading`, then the calls, then the destructor, which a call
that ends the process does not reach. -/
def readingSession (codec : Codec) (parse : Bytes → Option (List Dirent)) (alleyPath : Text)
    (calls : List ReadCall) (env : Env) (w : World) : List ReadResult × World :=
  match readingOutcome parse alleyPath w.file with
  | .noArchive => ([], w)
  | .refused zip => ([], destroy codec env w zip)
  | .opened zip =>
      match readResults codec.inflate (w.file.getD []) zip calls with
      | (results, true) => (results, destroy codec env w zip)
      | (results, false) => (results, w)

/-- **Opening for reading never writes**: whatever the file is, whether the opening
succeeds, and whatever is read. -/
theorem openForReading_leaves_world (codec : Codec) (parse : Bytes → Option (List Dirent))
    (alleyPath : Text) (calls : List ReadCall) (env : Env) (w : World) :
    (readingSession codec parse alleyPath calls env w).2 = w := by
  have hleaves : ∀ zip, (readingOutcome parse alleyPath w.file).Holds zip →
      destroy codec env w zip = w := by
    intro zip h
    obtain ⟨hchanged, htruncate⟩ := readingOutcome_unchanged h
    exact destroy_unchanged codec env w hchanged htruncate
  unfold readingSession
  cases houtcome : readingOutcome parse alleyPath w.file with
  | noArchive => rfl
  | refused zip => exact hleaves zip (Or.inr houtcome)
  | opened zip =>
      dsimp only
      rcases readResults codec.inflate (w.file.getD []) zip calls with ⟨results, _ | _⟩
      · rfl
      · exact hleaves zip (Or.inl houtcome)

/-! ## Adding to what is there -/

/-- `Allexe::addModule` with a name, with its result; `none` is a module file that
cannot be read or is no bitcode. -/
def ZipArchive.addModule (zip : ZipArchive) (m : Option Buffer) (moduleName : Text) :
    Bool × ZipArchive :=
  match m with
  | none => (false, zip)
  | some buffer => Call.apply zip (.addEntry buffer moduleName)

/-- `Allexe::open` without overwriting, then `addModule` of the main module, then
the destructor; with whether both calls succeed. -/
def addMainSession (codec : Codec) (parse : Bytes → Option (List Dirent)) (alleyPath : Text)
    (m : Option Buffer) (env : Env) (w : World) : Bool × World :=
  match openOutcome parse alleyPath w.file false with
  | .noArchive => (false, w)
  | .refused zip => (false, destroy codec env w zip)
  | .opened zip =>
      let (ok, zip) := zip.addModule m allexeMain
      (ok, destroy codec env w zip)

/-- An archive of one stored byte. -/
def storedArchive : Bytes :=
  storedEntry.localHeader false ++ [66] ++ storedEntry.centralRecord ++
    cdirEnd false 1 storedEntry.centralRecord.length (storedEntry.localHeader false ++ [66]).length

/-- No main module is added behind another one. -/
theorem addModule_refused {parse : Bytes → Option (List Dirent)} {alleyPath : Text}
    {file : Option Bytes} {zip : ZipArchive}
    (hopen : openAllexe parse alleyPath file false = some zip)
    (hentries : zip.archive.entries ≠ []) (m : Option Buffer) :
    (zip.addModule m allexeMain).1 = false ∧
      (zip.addModule m allexeMain).2.archive = zip.archive := by
  cases m with
  | none => exact ⟨rfl, rfl⟩
  | some buffer =>
      -- an archive that was accepted begins with that name
      have htaken : zip.archive.names allexeMain = some 0 := by
        rcases openAllexe_cases hopen with rfl | ⟨-, dirents, rfl, hmain⟩
        · exact absurd rfl hentries
        · cases dirents with
          | nil => exact absurd rfl hentries
          | cons de rest =>
              rw [← (text_eq_allexeMain_iff de).mpr (hmain de rfl)]
              exact names_ofDirectory_head de rest alleyPath
      have hrefused : zip.archive.fileAdd allexeMain buffer = none := by
        apply (openAllexe_consistent hopen).fileAdd_refused
        rintro ⟨-, -, hfree, -⟩
        rw [htaken] at hfree
        cases hfree
      have hadd : zip.addModule (some buffer) allexeMain =
          (false, ⟨zip.archive, zip.files ++ [allexeMain]⟩) := by
        show Call.apply zip (.addEntry buffer allexeMain) = _
        rw [apply_addEntry (by decide), ZipArchive.addEntry, hrefused]
      rw [hadd]
      exact ⟨rfl, rfl⟩

/-- **Without overwriting, an existing file is not altered**: if it is no archive
without entries, one of the two calls reports an error, and nothing is written. -/
theorem existing_archive_is_kept (codec : Codec) (parse : Bytes → Option (List Dirent))
    (alleyPath : Text) (m : Option Buffer) (env : Env) {w : World} {bytes : Bytes}
    (hfile : w.file = some bytes)
    (hentries : ∀ za, zipOpen parse (some bytes) false = some za → za.entries ≠ []) :
    addMainSession codec parse alleyPath m env w = (false, w) := by
  unfold addMainSession
  cases houtcome : openOutcome parse alleyPath w.file false with
  | noArchive => rfl
  | refused zip =>
      obtain ⟨hchanged, htruncate⟩ := openOutcome_unchanged (Or.inr houtcome)
      dsimp only
      rw [destroy_unchanged codec env w hchanged htruncate]
  | opened zip =>
      obtain ⟨hchanged, htruncate⟩ := openOutcome_unchanged (Or.inl houtcome)
      have hopen : openAllexe parse alleyPath (some bytes) false = some zip := by
        rw [← hfile, ← value_openOutcome, houtcome]
        rfl
      obtain ⟨za, hza, rfl, -⟩ := openAllexe_eq_some hopen
      obtain ⟨hok, harchive⟩ := addModule_refused hopen (hentries za hza) m
      dsimp only
      rw [hok, destroy_unchanged codec env w (harchive ▸ hchanged) (harchive ▸ htruncate)]

/-- An archive of one stored byte, and a text that is no archive. -/
theorem existing_archive_is_kept_stored :
    addMainSession storingCodec (fun _ => some [storedEntry]) [] (some ⟨bitcode, 0, 0⟩) .calm
        (.start (some storedArchive)) = (false, .start (some storedArchive)) ∧
      addMainSession storingCodec (fun _ => none) [] (some ⟨bitcode, 0, 0⟩) .calm
        (.start (some (ascii "asdf\n"))) = (false, .start (some (ascii "asdf\n"))) := by
  constructor
  · apply existing_archive_is_kept _ _ _ _ _ rfl
    intro za hza
    cases hza
    exact List.cons_ne_nil _ _
  · apply existing_archive_is_kept _ _ _ _ _ rfl
    intro za hza
    cases hza

end Archive
end AllvmTools
