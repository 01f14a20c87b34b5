import AllvmTools.Allexe.Allexe
import AllvmTools.Archive.ZipUtf8

/-!
# Archives in memory

An opened archive: its entries with their original and changed directory
entries and their new data, the table of names, and the prefix data of the ALLVM
patch; `zip_open`, `zip_file_add`, `zip_file_replace` and `_zip_set_name` over
it, and the calls of `ZipArchive` and `Allexe` that use them.
-/

namespace AllvmTools
namespace Archive

open Library Library.Text Library.Files

/-! ## Entries -/

/-- A buffer source and the time it was made. -/
structure Buffer where
  bytes : Bytes
  dosTime : Nat
  dosDate : Nat
deriving DecidableEq, Repr

/-- `entry->changes`, with the bits of its `changed` that are used. -/
structure Changes where
  dirent : Dirent
  compMethod : Bool
  filename : Bool
deriving DecidableEq, Repr

/-- `_zip_dirent_clone`: a copy, sizes included, or a new entry. -/
def Changes.clone (orig : Option Dirent) : Changes :=
  ⟨orig.getD .init, false, false⟩

structure ZipEntry where
  orig : Option Dirent
  changes : Option Changes
  source : Option Buffer
  deleted : Bool
deriving DecidableEq, Repr

/-- `_zip_entry_init`. -/
def ZipEntry.init : ZipEntry :=
  ⟨none, none, none, false⟩

/-- `ZIP_ENTRY_HAS_CHANGES`. -/
def ZipEntry.hasChanges (e : ZipEntry) : Bool :=
  e.source.isSome || e.deleted || e.changes.any fun c => c.compMethod || c.filename

/-- The bytes of the entry's current name. -/
def ZipEntry.name (e : ZipEntry) : Text :=
  match e.changes, e.orig with
  | some c, _ => c.dirent.filename
  | none, some o => o.filename
  | none, none => []

/-- `zip_get_name`. -/
def ZipEntry.text (e : ZipEntry) : Text :=
  nameText e.name

/-- `_zip_unchange_data`. -/
def ZipEntry.unchangeData (e : ZipEntry) : ZipEntry :=
  let changes :=
    match e.changes with
    | none => none
    | some c =>
        if c.compMethod = true ∧ c.dirent.compMethod = .replacedDefault then
          if c.filename then some { c with compMethod := false } else none
        else
          some c
  { e with source := none, changes := changes, deleted := false }

/-- The end of `_zip_file_replace`: an entry of the file is compressed anew. -/
def ZipEntry.setSource (e : ZipEntry) (source : Buffer) : ZipEntry :=
  let e := e.unchangeData
  let changes :=
    if e.orig.isSome = true ∧ (e.changes.all fun c => !c.compMethod) = true then
      let c := e.changes.getD (.clone e.orig)
      some { c with
        dirent := { c.dirent with compMethod := .replacedDefault }
        compMethod := true }
    else
      e.changes
  { e with changes := changes, source := some source }

/-! ## Names -/

/-- `_zip_string_new` with `ZIP_FL_ENC_UTF_8`: the length is cut to 16 bits, and
an empty string is an error like any other. -/
def zipStringNew (name : Text) : Option (Text × Encoding) :=
  let raw := name.take (name.length % 2 ^ 16)
  if raw = [] then
    none
  else
    match guessEncoding raw with
    | .ascii => some (raw, .ascii)
    | .utf8Guessed => some (raw, .utf8Known)
    | _ => none

/-- A string that is made of a name is its own text. -/
theorem nameText_of_zipStringNew {name str : Text} {encoding : Encoding}
    (h : zipStringNew name = some (str, encoding)) : nameText str = str := by
  unfold zipStringNew at h
  dsimp only at h
  split at h
  · cases h
  split at h
  · next hguess =>
      cases h
      exact nameText_of_ne (by rw [hguess]; exact Encoding.noConfusion)
  · next hguess =>
      cases h
      exact nameText_of_ne (by rw [hguess]; exact Encoding.noConfusion)
  · cases h

theorem nameText_of_string {name str : Text} {encoding : Encoding}
    (h : (if name = [] then some ([], Encoding.ascii) else zipStringNew name) =
      some (str, encoding)) : nameText str = str := by
  split at h
  · cases h
    exact nameText_nil
  · exact nameText_of_zipStringNew h

/-- The end of `_zip_set_name`: the entry goes back to its name in the file, or keeps
the string as a change. -/
def ZipEntry.setName (e : ZipEntry) (str : Text) (encoding : Encoding) : ZipEntry :=
  if (e.orig.any fun o => decide (o.filename = str)) = true then
    { e with
      changes :=
        match e.changes, e.orig with
        | some c, some o =>
            if c.filename then
              if c.compMethod then
                some { c with
                  filename := false
                  dirent := { c.dirent with
                    filename := o.filename
                    nameEncoding := o.nameEncoding } }
              else
                none
            else
              some c
        | changes, _ => changes }
  else
    let c := e.changes.getD (.clone e.orig)
    { e with
      changes := some { c with
        filename := true
        dirent := { c.dirent with filename := str, nameEncoding := encoding } } }

theorem text_init : ZipEntry.init.text = [] :=
  nameText_nil

/-- A new entry keeps its first name as a change. -/
theorem setName_init (str : Text) (encoding : Encoding) :
    ZipEntry.init.setName str encoding = ⟨none,
      some ⟨{ Dirent.init with filename := str, nameEncoding := encoding }, false, true⟩, none,
      false⟩ :=
  rfl

/-! ## Archives -/

/-- `struct zip`; `names` is the current index of the name table. -/
structure Zip where
  truncate : Bool
  entries : List ZipEntry
  names : Text → Option Nat
  prefixdata : Option Text

/-- `_zip_allocate_new`. -/
def Zip.allocateNew (truncate : Bool) : Zip :=
  ⟨truncate, [], fun _ => none, none⟩

/-- The name table after opening: the first of several equal texts stays. -/
def nameTable : Nat → List Text → (Text → Option Nat) → Text → Option Nat
  | _, [], names => names
  | idx, name :: rest, names =>
      nameTable (idx + 1) rest
        (if (names name).isSome then names else Function.update names name (some idx))

/-- The text of an entry's name. -/
def Dirent.text (de : Dirent) : Text :=
  nameText de.filename

/-- The entries of a directory that was read. -/
def originalEntries (dirents : List Dirent) : List ZipEntry :=
  dirents.map fun de => ⟨some de, none, none, false⟩

/-- `zip_open` with `ZIP_CREATE`, and with `ZIP_TRUNCATE` to overwrite; `parse`
is `_zip_find_central_dir`. -/
def zipOpen (parse : Bytes → Option (List Dirent)) (file : Option Bytes) (overwrite : Bool) :
    Option Zip :=
  match file with
  | none => some (.allocateNew overwrite)
  | some bytes =>
      if overwrite then
        some (.allocateNew overwrite)
      else if bytes = [] then
        some (.allocateNew overwrite)
      else
        match parse bytes with
        | none => none
        | some dirents =>
            some ⟨overwrite, originalEntries dirents,
              nameTable 0 (dirents.map Dirent.text) fun _ => none, none⟩

/-- An archive that was opened is a new one, or holds the entries of a directory. -/
theorem zipOpen_cases {parse : Bytes → Option (List Dirent)} {file : Option Bytes}
    {overwrite : Bool} {za : Zip} (h : zipOpen parse file overwrite = some za) :
    za = .allocateNew overwrite ∨
      overwrite = false ∧ ∃ bytes dirents, file = some bytes ∧ bytes ≠ [] ∧
        parse bytes = some dirents ∧
        za = ⟨false, originalEntries dirents,
          nameTable 0 (dirents.map Dirent.text) fun _ => none, none⟩ := by
  unfold zipOpen at h
  split at h
  · exact Or.inl (Option.some.inj h).symm
  split at h
  · exact Or.inl (Option.some.inj h).symm
  next bytes hoverwrite =>
  split at h
  · exact Or.inl (Option.some.inj h).symm
  next hbytes =>
  split at h
  · cases h
  next dirents hparse =>
  rw [Bool.not_eq_true] at hoverwrite
  subst hoverwrite
  exact Or.inr ⟨rfl, bytes, dirents, rfl, hbytes, hparse, (Option.some.inj h).symm⟩

/-- `_zip_set_name`. -/
def Zip.setName (za : Zip) (idx : Nat) (name : Text) : Option Zip :=
  match za.entries[idx]? with
  | none => none
  | some e =>
      match (if name = [] then some ([], Encoding.ascii) else zipStringNew name) with
      | none => none
      | some (str, encoding) =>
          match za.names name with
          | some i => if i = idx then some za else none
          | none =>
              let newName := nameText str
              let oldName := e.text
              if (za.names newName).isSome then
                none
              else
                let names := Function.update za.names newName (some idx)
                some { za with
                  entries := za.entries.set idx (e.setName str encoding)
                  names := if oldName = [] then names else Function.update names oldName none }

/-- `zip_file_replace`. -/
def Zip.fileReplace (za : Zip) (idx : Nat) (source : Buffer) : Option Zip :=
  match za.entries[idx]? with
  | none => none
  | some e => some { za with entries := za.entries.set idx (e.setSource source) }

/-- `zip_file_add`: a new entry is named and given its data; it is taken back when
its name is refused. -/
def Zip.fileAdd (za : Zip) (name : Text) (source : Buffer) : Option Zip :=
  match ({ za with entries := za.entries ++ [ZipEntry.init] }).setName za.entries.length name with
  | none => none
  | some za' => za'.fileReplace za.entries.length source

/-! ## `ZipArchive` and `Allexe` -/

/-- `ZipArchive`: the archive and the names `listFiles` shows. -/
structure ZipArchive where
  archive : Zip
  files : List Text

/-- `ZipArchive::open`. -/
def ZipArchive.openZip (parse : Bytes → Option (List Dirent)) (file : Option Bytes)
    (overwrite : Bool) : Option ZipArchive :=
  (zipOpen parse file overwrite).map fun za => ⟨za, za.entries.map ZipEntry.text⟩

/-- `ZipArchive::addEntry`, with its result. -/
def ZipArchive.addEntry (zip : ZipArchive) (entry : Buffer) (entryName : Text) :
    Bool × ZipArchive :=
  let zip := { zip with files := zip.files ++ [entryName] }
  match zip.archive.fileAdd entryName entry with
  | none => (false, zip)
  | some za => (true, { zip with archive := za })

/-- `ZipArchive::updateEntry` without a new name, with its result. -/
def ZipArchive.updateData (zip : ZipArchive) (idx : Nat) (entry : Buffer) : Bool × ZipArchive :=
  match zip.archive.fileReplace idx entry with
  | none => (false, zip)
  | some za => (true, { zip with archive := za })

/-- The prefix data of an allexe. -/
def shebang (alleyPath : Text) : Text :=
  ascii "#!" ++ alleyPath ++ [10]

/-- `Allexe::open`. -/
def openAllexe (parse : Bytes → Option (List Dirent)) (alleyPath : Text) (file : Option Bytes)
    (overwrite : Bool) : Option ZipArchive :=
  match ZipArchive.openZip parse file overwrite with
  | none => none
  | some zip =>
      let zip := { zip with
        archive := { zip.archive with prefixdata := some (shebang alleyPath) } }
      match zip.files with
      | [] => some zip
      | first :: _ => if first = allexeMain then some zip else none

theorem openAllexe_eq_some {parse : Bytes → Option (List Dirent)} {alleyPath : Text}
    {file : Option Bytes} {overwrite : Bool} {zip : ZipArchive}
    (h : openAllexe parse alleyPath file overwrite = some zip) :
    ∃ za, zipOpen parse file overwrite = some za ∧
      zip = ⟨{ za with prefixdata := some (shebang alleyPath) }, za.entries.map ZipEntry.text⟩ ∧
      ∀ first ∈ (za.entries.map ZipEntry.text).head?, first = allexeMain := by
  unfold openAllexe ZipArchive.openZip at h
  cases hza : zipOpen parse file overwrite with
  | none =>
      rw [hza] at h
      cases h
  | some za =>
      rw [hza] at h
      refine ⟨za, rfl, ?_⟩
      simp only [Option.map_some] at h
      cases hfiles : za.entries.map ZipEntry.text with
      | nil =>
          rw [hfiles] at h
          exact ⟨(Option.some.inj h).symm, fun first hfirst => by cases hfirst⟩
      | cons name rest =>
          rw [hfiles] at h
          dsimp only at h
          split at h
          · next hmain =>
              refine ⟨(Option.some.inj h).symm, ?_⟩
              rintro _ ⟨⟩
              exact hmain
          · cases h

/-- `Allexe::openForReading`. -/
def openForReading (parse : Bytes → Option (List Dirent)) (alleyPath : Text)
    (file : Option Bytes) : Option ZipArchive :=
  match openAllexe parse alleyPath file false with
  | none => none
  | some zip => if zip.files = [] then none else some zip

end Archive
end AllvmTools
