import Mathlib.Data.List.TakeWhile
import AllvmTools.Archive.OpenArchive
import AllvmTools.Library.Paths
import AllvmTools.Library.Runs

/-!
# The table of names

`ZipArchive` keeps the names of the entries a second time, in `files`, and changes
them by hand.

* `setName_of_taken`, `setName_of_free` — what `_zip_set_name` does with a name.
* `Call.mirrors_iff` — a call keeps both in step, just where `Call.Keeps` says so.
* `mirrors_throughout_iff` — and so do all calls of a run.
* `name_without_entry` — a refused addition leaves a name behind.
-/

namespace AllvmTools
namespace Archive

open Library Library.Text Library.Files Library.Paths Library.Runs

/-! ## Renaming -/

/-- The last byte of a name is a slash.  Of an empty name the source looks at the byte in
front of it, which is taken for another. -/
def isDirName (name : Text) : Bool :=
  name.getLast? == some slash

/-- `zip_file_rename`. -/
def Zip.fileRename (za : Zip) (idx : Nat) (name : Text) : Option Zip :=
  match za.entries[idx]? with
  | none => none
  | some e =>
      if 0xFFFF < name.length then none
      else if isDirName name ≠ isDirName e.text then none
      else za.setName idx name

/-- A `StringRef` passed on as `data()`: the text before its first terminator. -/
def cString (name : Text) : Text :=
  name.takeWhile (· ≠ 0)

/-- `ZIP_INDEX_LAST`. -/
def zipIndexLast : UInt64 :=
  0xFFFFFFFFFFFFFFFF

/-- `ZipArchive::writeBufferToEntry`, with its result. -/
def ZipArchive.writeBufferToEntry (zip : ZipArchive) (idx : UInt64) (buf : Buffer)
    (entryName : Text) : Bool × ZipArchive :=
  if idx ≠ zipIndexLast then
    match zip.archive.fileReplace idx.toNat buf with
    | none => (false, zip)
    | some za =>
        if entryName = [] then
          (true, { zip with archive := za })
        else
          -- the result of `zip_file_rename` is taken for a truth value
          match za.fileRename idx.toNat (cString entryName) with
          | none => (true, { zip with archive := za })
          | some za => (false, { zip with archive := za })
  else
    match zip.archive.fileAdd (cString entryName) buf with
    | none => (false, zip)
    | some za => (true, { zip with archive := za })

/-- A call on an open `ZipArchive`, with any index, buffer and name. -/
inductive Call where
  | addEntry (entry : Buffer) (entryName : Text)
  | updateEntry (idx : UInt64) (entry : Buffer) (newEntryName : Text)
deriving DecidableEq, Repr

/-- `ZipArchive::addEntry` and `ZipArchive::updateEntry`. -/
def Call.apply (zip : ZipArchive) : Call → Bool × ZipArchive
  | addEntry entry entryName =>
      { zip with files := zip.files ++ [entryName] }.writeBufferToEntry zipIndexLast entry entryName
  | updateEntry idx entry newEntryName => zip.writeBufferToEntry idx entry newEntryName

theorem cString_of_plain {name : Text} (h : 0 ∉ name) : cString name = name := by
  apply List.takeWhile_eq_self_iff.mpr
  intro b hb
  simpa using fun hzero : b = 0 => h (hzero ▸ hb)

/-- The calls of `Allexe` are among these. -/
theorem apply_addEntry {zip : ZipArchive} {name : Text} (hname : 0 ∉ name) (buffer : Buffer) :
    Call.apply zip (.addEntry buffer name) = zip.addEntry buffer name := by
  have hlast : ¬ zipIndexLast ≠ zipIndexLast := not_not.mpr rfl
  have hkept := cString_of_plain hname
  cases hadd : zip.archive.fileAdd name buffer with
  | none =>
      simp only [Call.apply, ZipArchive.writeBufferToEntry, ZipArchive.addEntry, if_neg hlast,
        hkept, hadd]
  | some za =>
      simp only [Call.apply, ZipArchive.writeBufferToEntry, ZipArchive.addEntry, if_neg hlast,
        hkept, hadd]

/-! ## Entries -/

/-- Where its name was not changed, an entry has the name it has in the file. -/
def ZipEntry.NameKept (e : ZipEntry) : Prop :=
  ∀ c, e.changes = some c → c.filename = false →
    ∃ o, e.orig = some o ∧ c.dirent.filename = o.filename

theorem ZipEntry.text_congr {e e' : ZipEntry} (h : e'.name = e.name) : e'.text = e.text :=
  congrArg nameText h

theorem ZipEntry.NameKept.unchangeData {e : ZipEntry} (h : e.NameKept) :
    e.unchangeData.NameKept ∧ e.unchangeData.name = e.name := by
  unfold ZipEntry.unchangeData ZipEntry.NameKept ZipEntry.name
  cases hchanges : e.changes with
  | none => exact ⟨fun c hc => absurd hc (by simp), rfl⟩
  | some c =>
      dsimp only
      by_cases hreplaced : c.compMethod = true ∧ c.dirent.compMethod = .replacedDefault
      · rw [if_pos hreplaced]
        cases hname : c.filename with
        | true =>
            refine ⟨?_, rfl⟩
            rintro _ ⟨⟩ hfalse
            cases hfalse
        | false =>
            obtain ⟨o, ho, hsame⟩ := h c hchanges hname
            refine ⟨fun c hc => absurd hc (by simp), ?_⟩
            simp [ho, hsame]
      · rw [if_neg hreplaced]
        refine ⟨?_, rfl⟩
        rintro _ ⟨⟩ hname
        exact h c hchanges hname

/-- New data leaves the name alone. -/
theorem ZipEntry.NameKept.setSource {e : ZipEntry} (h : e.NameKept) (source : Buffer) :
    (e.setSource source).NameKept ∧ (e.setSource source).name = e.name := by
  obtain ⟨hkept, hname⟩ := h.unchangeData
  unfold ZipEntry.setSource
  dsimp only
  split
  · next hnew =>
      obtain ⟨o, ho⟩ := Option.isSome_iff_exists.mp hnew.1
      rw [← hname]
      unfold ZipEntry.NameKept ZipEntry.name at *
      cases hchanges : e.unchangeData.changes with
      | none =>
          simp [Changes.clone, ho]
      | some c =>
          refine ⟨?_, rfl⟩
          rintro _ ⟨⟩ hfalse
          exact hkept c hchanges hfalse
  · exact ⟨hkept, hname⟩

/-- A name that is set is the one the entry has then. -/
theorem ZipEntry.NameKept.setName {e : ZipEntry} (h : e.NameKept) (str : Text)
    (encoding : Encoding) :
    (e.setName str encoding).NameKept ∧ (e.setName str encoding).name = str := by
  unfold ZipEntry.setName
  split
  · next hsame =>
      -- back to the name in the file
      obtain ⟨o, ho, ho'⟩ : ∃ o, e.orig = some o ∧ o.filename = str := by
        obtain ⟨o, ho, hfilename⟩ := (Option.any_eq_true _ _).mp hsame
        exact ⟨o, ho, of_decide_eq_true hfilename⟩
      unfold ZipEntry.NameKept ZipEntry.name
      cases hchanges : e.changes with
      | none => simp [ho, ho']
      | some c =>
          cases hname : c.filename with
          | true => cases hdata : c.compMethod <;> simp [ho, ho', hname, hdata]
          | false =>
              obtain ⟨o', horig, hfilename⟩ := h c hchanges hname
              rw [ho] at horig
              cases horig
              simp [ho, ho', hname, hfilename]
  · -- the name is new to the file, so the record keeps it as a change
    refine ⟨?_, rfl⟩
    rintro _ ⟨⟩ hfalse
    cases hfalse

/-- A name leaves the data alone. -/
theorem ZipEntry.setName_data (e : ZipEntry) (str : Text) (encoding : Encoding) :
    (e.setName str encoding).orig = e.orig ∧ (e.setName str encoding).source = e.source := by
  unfold ZipEntry.setName
  split
  · exact ⟨rfl, rfl⟩
  · exact ⟨rfl, rfl⟩

/-! ## `_zip_set_name` -/

/-- The string made of a name, if it is accepted. -/
def storedText (name : Text) : Option Text :=
  if name = [] then some [] else (zipStringNew name).map Prod.fst

section SetName

variable {za : Zip} {idx : Nat} {e : ZipEntry} {name : Text}

theorem exists_encoding {str : Text} (hstr : storedText name = some str) :
    ∃ encoding, (if name = [] then some ([], Encoding.ascii) else zipStringNew name) =
      some (str, encoding) := by
  unfold storedText at hstr
  split at hstr
  · next hnil =>
      cases hstr
      exact ⟨.ascii, if_pos hnil⟩
  · next hne =>
      obtain ⟨⟨str', encoding⟩, hstring, rfl⟩ := Option.map_eq_some_iff.mp hstr
      exact ⟨encoding, by rw [if_neg hne, hstring]⟩

theorem setName_of_refused (h : storedText name = none) : za.setName idx name = none := by
  unfold storedText at h
  unfold Zip.setName
  split
  · rfl
  · split at h
    · cases h
    · next hne =>
        rw [if_neg hne, Option.map_eq_none_iff.mp h]

theorem setName_of_taken (he : za.entries[idx]? = some e) {str : Text}
    (hstr : storedText name = some str) {i : Nat} (htaken : za.names name = some i) :
    za.setName idx name = if i = idx then some za else none := by
  obtain ⟨encoding, hstring⟩ := exists_encoding hstr
  unfold Zip.setName
  simp only [he, hstring, htaken]

/-- A name of which the table holds the string already. -/
theorem setName_of_cut (he : za.entries[idx]? = some e) {str : Text}
    (hstr : storedText name = some str) (hfree : za.names name = none)
    (hcut : (za.names str).isSome = true) : za.setName idx name = none := by
  obtain ⟨encoding, hstring⟩ := exists_encoding hstr
  unfold Zip.setName
  simp only [he, hstring, hfree, nameText_of_string hstring, if_pos hcut]

/-- What the table holds after an entry took another name. -/
theorem names_renamed {names : Text → Option Nat} {str oldName n : Text} {i : Nat}
    (hi : (if oldName = [] then Function.update names str (some idx)
      else Function.update (Function.update names str (some idx)) oldName none) n = some i) :
    i = idx ∨ names n = some i := by
  have hnew : Function.update names str (some idx) n = some i → i = idx ∨ names n = some i := by
    intro hi
    by_cases hn : n = str
    · rw [hn, Function.update_self] at hi
      exact Or.inl (Option.some.inj hi).symm
    · rw [Function.update_of_ne hn] at hi
      exact Or.inr hi
  split at hi
  · exact hnew hi
  · by_cases hn : n = oldName
    · rw [hn, Function.update_self] at hi
      cases hi
    · rw [Function.update_of_ne hn] at hi
      exact hnew hi

/-- A new name: the entry has it then, and the table knows the text. -/
theorem setName_of_new (he : za.entries[idx]? = some e) {str : Text} {encoding : Encoding}
    (hstring : (if name = [] then some ([], Encoding.ascii) else zipStringNew name) =
      some (str, encoding)) (hfree : za.names name = none) (hfree' : za.names str = none) :
    za.setName idx name = some { za with
      entries := za.entries.set idx (e.setName str encoding)
      names := if e.text = [] then Function.update za.names str (some idx)
        else Function.update (Function.update za.names str (some idx)) e.text none } := by
  unfold Zip.setName
  simp only [he, hstring, hfree, nameText_of_string hstring, hfree', Option.isSome_none,
    Bool.false_eq_true, if_false]

/-- The table knows a new name at most under the index of the entry. -/
theorem setName_of_free (he : za.entries[idx]? = some e) (hkept : e.NameKept) {str : Text}
    (hstr : storedText name = some str) (hfree : za.names name = none)
    (hfree' : za.names str = none) :
    ∃ za' e', za.setName idx name = some za' ∧ za'.entries = za.entries.set idx e' ∧
      e'.name = str ∧ e'.NameKept ∧ ∀ n i, za'.names n = some i → i = idx ∨ za.names n = some i := by
  obtain ⟨encoding, hstring⟩ := exists_encoding hstr
  obtain ⟨hkept', hname⟩ := hkept.setName str encoding
  exact ⟨_, _, setName_of_new he hstring hfree hfree', rfl, hname, hkept',
    fun n i hi => names_renamed hi⟩

end SetName

/-! ## What an archive does with a name -/

/-- The entries keep their names, and the table points into them. -/
structure Zip.Consistent (za : Zip) : Prop where
  kept : ∀ e ∈ za.entries, e.NameKept
  names : ∀ name i, za.names name = some i → i < za.entries.length

/-- A new entry can have this name: its string is accepted, and neither of them is
in the table. -/
def Zip.TakesNew (za : Zip) (name : Text) : Prop :=
  ∃ str, storedText name = some str ∧ za.names name = none ∧ za.names str = none

/-- An entry is renamed to this name: it is not too long, it is that of a directory
just where the old one is, its string is accepted, and it is not in the table. -/
def Zip.Renames (za : Zip) (e : ZipEntry) (name : Text) : Prop :=
  name.length ≤ 0xFFFF ∧ isDirName name = isDirName e.text ∧
    (storedText name).isSome = true ∧ za.names name = none

theorem storedText_of_short {name str : Text} (hname : name.length ≤ 0xFFFF)
    (h : storedText name = some str) : str = name := by
  unfold storedText at h
  split at h
  · next hnil =>
      cases h
      exact hnil.symm
  · obtain ⟨⟨str', encoding⟩, hstring, rfl⟩ := Option.map_eq_some_iff.mp h
    exact zipStringNew_of_short hname hstring

/-- The string of a name is no longer than it. -/
theorem length_storedText {name str : Text} (h : storedText name = some str) :
    str.length ≤ name.length % 2 ^ 16 := by
  unfold storedText at h
  split at h
  · cases h
    exact Nat.zero_le _
  · obtain ⟨⟨str', encoding⟩, hstring, rfl⟩ := Option.map_eq_some_iff.mp h
    exact length_zipStringNew hstring

/-- A name that is stored as it is given. -/
theorem eq_storedText_iff {name str : Text} (h : storedText (cString name) = some str) :
    name = str ↔ 0 ∉ name ∧ name.length ≤ 0xFFFF := by
  constructor
  · intro hname
    have hfront : cString name <+: name := List.takeWhile_prefix _
    have hlength := length_storedText h
    have hmod := Nat.mod_le (cString name).length (2 ^ 16)
    have hle := hfront.length_le
    have hsame : name.length = str.length := congrArg List.length hname
    have hwhole : cString name = name := hfront.eq_of_length (by omega)
    constructor
    · intro hzero
      rw [← hwhole] at hzero
      simpa using List.mem_takeWhile_imp hzero
    · have hlt := Nat.mod_lt (cString name).length (show 0 < 2 ^ 16 by decide)
      omega
  · rintro ⟨hplain, hshort⟩
    rw [cString_of_plain hplain] at h
    exact (storedText_of_short hshort h).symm

section Calls

variable {za : Zip} {name : Text} {buffer : Buffer}

theorem Zip.Consistent.fileReplace (h : za.Consistent) {idx : Nat} {e : ZipEntry}
    (he : za.entries[idx]? = some e) :
    ∃ za' e', za.fileReplace idx buffer = some za' ∧ za'.entries = za.entries.set idx e' ∧
      e'.name = e.name ∧ za'.names = za.names ∧ za'.Consistent := by
  obtain ⟨hkept, hname⟩ := (h.kept e (List.mem_of_getElem? he)).setSource buffer
  refine ⟨{ za with entries := za.entries.set idx (e.setSource buffer) }, e.setSource buffer,
    by rw [Zip.fileReplace, he], rfl, hname, rfl, ?_, ?_⟩
  · intro e' he'
    rcases List.mem_or_eq_of_mem_set he' with hold | rfl
    · exact h.kept e' hold
    · exact hkept
  · intro n i hi
    rw [List.length_set]
    exact h.names n i hi

theorem Zip.Consistent.fileAdd (h : za.Consistent) {str : Text}
    (hstr : storedText name = some str) (hfree : za.names name = none)
    (hfree' : za.names str = none) :
    ∃ za' e', za.fileAdd name buffer = some za' ∧ za'.entries = za.entries ++ [e'] ∧
      e'.name = str ∧ za'.Consistent := by
  -- the entry is appended first and named then
  have hinit : ({ za with entries := za.entries ++ [ZipEntry.init] } : Zip).entries[
      za.entries.length]? = some ZipEntry.init := List.getElem?_concat_length
  have hkept : ZipEntry.init.NameKept := fun c hc => by cases hc
  obtain ⟨za₁, e₁, hset, hentries, hname, hkept₁, hnames⟩ :=
    setName_of_free hinit hkept hstr hfree hfree'
  rw [List.set_append_right _ _ (Nat.le_refl _), Nat.sub_self, List.set_cons_zero] at hentries
  have hconsistent : za₁.Consistent := by
    constructor
    · intro e he
      rw [hentries] at he
      rcases List.mem_append.mp he with hold | hnew
      · exact h.kept e hold
      · rw [List.mem_singleton.mp hnew]
        exact hkept₁
    · intro n i hi
      rw [hentries, List.length_append, List.length_singleton]
      rcases hnames n i hi with rfl | hold
      · omega
      · have hlt := h.names n i hold
        omega
  have he₁ : za₁.entries[za.entries.length]? = some e₁ := by
    rw [hentries]
    exact List.getElem?_concat_length
  obtain ⟨za', e', hreplace, hentries', hname', -, hconsistent'⟩ :=
    @Zip.Consistent.fileReplace _ buffer hconsistent _ _ he₁
  refine ⟨za', e', ?_, ?_, hname'.trans hname, hconsistent'⟩
  · rw [Zip.fileAdd, hset]
    exact hreplace
  · rw [hentries', hentries, List.set_append_right _ _ (Nat.le_refl _), Nat.sub_self,
      List.set_cons_zero]

theorem Zip.Consistent.fileAdd_refused (h : za.Consistent) (hrefused : ¬ za.TakesNew name) :
    za.fileAdd name buffer = none := by
  have hinit : ({ za with entries := za.entries ++ [ZipEntry.init] } : Zip).entries[
      za.entries.length]? = some ZipEntry.init := List.getElem?_concat_length
  have hset : ({ za with entries := za.entries ++ [ZipEntry.init] } : Zip).setName
      za.entries.length name = none := by
    cases hstr : storedText name with
    | none => exact setName_of_refused hstr
    | some str =>
        cases hname : za.names name with
        | some i =>
            have hlt := h.names name i hname
            rw [setName_of_taken hinit hstr hname, if_neg (by omega)]
        | none =>
            apply setName_of_cut hinit hstr hname
            rw [Option.isSome_iff_ne_none]
            exact fun hfree => hrefused ⟨str, hstr, hname, hfree⟩
  rw [Zip.fileAdd, hset]

theorem Zip.Consistent.fileRename (h : za.Consistent) {idx : Nat} {e : ZipEntry}
    (he : za.entries[idx]? = some e) (hrenames : za.Renames e name) :
    ∃ za' e', za.fileRename idx name = some za' ∧ za'.entries = za.entries.set idx e' ∧
      e'.name = name ∧ za'.Consistent := by
  obtain ⟨hshort, hdir, hsome, hfree⟩ := hrenames
  obtain ⟨str, hstr⟩ := Option.isSome_iff_exists.mp hsome
  obtain rfl := storedText_of_short hshort hstr
  obtain ⟨za', e', hset, hentries, hname, hkept, hnames⟩ :=
    setName_of_free he (h.kept e (List.mem_of_getElem? he)) hstr hfree hfree
  refine ⟨za', e', ?_, hentries, hname, ?_, ?_⟩
  · rw [Zip.fileRename, he]
    dsimp only
    rw [if_neg (by omega), if_neg (fun hne => hne hdir), hset]
  · intro e₁ he₁
    rw [hentries] at he₁
    rcases List.mem_or_eq_of_mem_set he₁ with hold | rfl
    · exact h.kept e₁ hold
    · exact hkept
  · intro n i hi
    rw [hentries, List.length_set]
    rcases hnames n i hi with rfl | hold
    · exact (List.getElem?_eq_some_iff.mp he).1
    · exact h.names n i hold

/-- Any other name is refused, or is the name of the entry in the table. -/
theorem fileRename_refused {idx : Nat} {e : ZipEntry} (he : za.entries[idx]? = some e)
    (hrefused : ¬ za.Renames e name) :
    za.fileRename idx name = none ∨ za.fileRename idx name = some za := by
  unfold Zip.fileRename
  rw [he]
  dsimp only
  split
  · exact Or.inl rfl
  next hshort =>
  split
  · exact Or.inl rfl
  next hdir =>
  cases hstr : storedText name with
  | none => exact Or.inl (setName_of_refused hstr)
  | some str =>
      cases hname : za.names name with
      | none =>
          exact absurd ⟨by omega, not_not.mp hdir, by rw [hstr]; rfl, hname⟩ hrefused
      | some i =>
          rw [setName_of_taken he hstr hname]
          by_cases hi : i = idx
          · exact Or.inr (if_pos hi)
          · exact Or.inl (if_neg hi)

end Calls

/-! ## Both tables -/

/-- `listFiles` shows one name for every entry, the one it will be stored under. -/
def Mirrors (zip : ZipArchive) : Prop :=
  zip.files = zip.archive.entries.map ZipEntry.name

/-- Every index below `getNumModules` is one of an entry. -/
theorem Mirrors.index_lt {zip : ZipArchive} (h : Mirrors zip) {i : Nat}
    (hi : i < zip.files.length) : i < zip.archive.entries.length := by
  rw [h, List.length_map] at hi
  exact hi

/-- The condition under which a call keeps both in step. -/
def Call.Keeps (za : Zip) : Call → Prop
  | addEntry _ entryName =>
      0 ∉ entryName ∧ entryName.length ≤ 0xFFFF ∧ za.TakesNew entryName
  | updateEntry idx _ newEntryName =>
      if idx = zipIndexLast then ¬ za.TakesNew (cString newEntryName)
      else ∀ e, za.entries[idx.toNat]? = some e →
        newEntryName = [] ∨ cString newEntryName = e.name ∨
          ¬ za.Renames e (cString newEntryName)

/-- An entry that got another name. -/
theorem map_name_set_eq_iff {entries : List ZipEntry} {idx : Nat} {e e' : ZipEntry}
    (he : entries[idx]? = some e) :
    entries.map ZipEntry.name = (entries.set idx e').map ZipEntry.name ↔ e'.name = e.name := by
  have hlt := (List.getElem?_eq_some_iff.mp he).1
  constructor
  · intro h
    have hat := congrArg (·[idx]?) h
    simp only [List.getElem?_map, List.getElem?_set_self hlt, he, Option.map_some] at hat
    exact (Option.some.inj hat).symm
  · intro hname
    rw [List.map_set, hname]
    apply List.ext_getElem?
    intro i
    by_cases hi : idx = i
    · subst hi
      rw [List.getElem?_set_self (by rw [List.length_map]; exact hlt), List.getElem?_map, he]
      rfl
    · rw [List.getElem?_set_ne hi]

/-- Where one entry was replaced, both tables still agree if it kept its name. -/
theorem mirrors_set_iff {za za' : Zip} {files : List Text} {idx : Nat} {e e' : ZipEntry}
    (hmirrors : Mirrors ⟨za, files⟩) (he : za.entries[idx]? = some e)
    (hentries : za'.entries = za.entries.set idx e') :
    Mirrors ⟨za', files⟩ ↔ e'.name = e.name := by
  unfold Mirrors at *
  dsimp only at *
  rw [hentries, hmirrors]
  exact map_name_set_eq_iff he

section Step

variable {zip : ZipArchive}

theorem Call.mirrors_addEntry (hconsistent : zip.archive.Consistent) (hmirrors : Mirrors zip)
    (entry : Buffer) (entryName : Text) :
    (Call.apply zip (.addEntry entry entryName)).2.archive.Consistent ∧
      (Mirrors (Call.apply zip (.addEntry entry entryName)).2 ↔
        Call.Keeps zip.archive (.addEntry entry entryName)) := by
  unfold Call.apply ZipArchive.writeBufferToEntry
  dsimp only
  rw [if_neg (by simp)]
  by_cases htakes : zip.archive.TakesNew (cString entryName)
  · obtain ⟨str, hstr, hfree, hfree'⟩ := htakes
    obtain ⟨za', e', hadd, hentries, hname, hconsistent'⟩ :=
      @Zip.Consistent.fileAdd _ _ entry hconsistent _ hstr hfree hfree'
    rw [hadd]
    refine ⟨hconsistent', ?_⟩
    have hsame : Mirrors ⟨za', zip.files ++ [entryName]⟩ ↔ entryName = str := by
      unfold Mirrors
      dsimp only
      rw [hentries, hmirrors, List.map_append, List.map_singleton, hname]
      simp
    refine hsame.trans ((eq_storedText_iff hstr).trans ?_)
    constructor
    · rintro ⟨hplain, hshort⟩
      refine ⟨hplain, hshort, ?_⟩
      rw [cString_of_plain hplain] at hstr hfree
      exact ⟨str, hstr, hfree, hfree'⟩
    · rintro ⟨hplain, hshort, -⟩
      exact ⟨hplain, hshort⟩
  · rw [hconsistent.fileAdd_refused htakes]
    refine ⟨hconsistent, iff_of_false ?_ ?_⟩
    · -- the name was added before the entry was refused
      intro h
      have hlength := congrArg List.length h
      rw [hmirrors] at hlength
      simp at hlength
    · rintro ⟨hplain, -, h⟩
      rw [cString_of_plain hplain] at htakes
      exact htakes h

/-- An update of the last index is an addition without a name. -/
theorem Call.mirrors_updateLast (hconsistent : zip.archive.Consistent) (hmirrors : Mirrors zip)
    (entry : Buffer) (newEntryName : Text) :
    (Call.apply zip (.updateEntry zipIndexLast entry newEntryName)).2.archive.Consistent ∧
      (Mirrors (Call.apply zip (.updateEntry zipIndexLast entry newEntryName)).2 ↔
        ¬ zip.archive.TakesNew (cString newEntryName)) := by
  unfold Call.apply ZipArchive.writeBufferToEntry
  dsimp only
  rw [if_neg (not_not.mpr rfl)]
  by_cases htakes : zip.archive.TakesNew (cString newEntryName)
  · obtain ⟨str, hstr, hfree, hfree'⟩ := htakes
    obtain ⟨za', e', hadd, hentries, -, hconsistent'⟩ :=
      @Zip.Consistent.fileAdd _ _ entry hconsistent _ hstr hfree hfree'
    rw [hadd]
    refine ⟨hconsistent', iff_of_false ?_ (fun h => h ⟨str, hstr, hfree, hfree'⟩)⟩
    -- the entries are one more than the names
    intro h
    have hlength := congrArg List.length h
    rw [hmirrors] at hlength
    simp [hentries] at hlength
  · rw [hconsistent.fileAdd_refused htakes]
    exact ⟨hconsistent, iff_of_true hmirrors htakes⟩

/-- Renaming an entry behind the back of the names. -/
theorem mirrors_fileRename {za : Zip} {files : List Text} {idx : Nat} {e : ZipEntry} {name : Text}
    (hconsistent : za.Consistent) (hmirrors : Mirrors ⟨za, files⟩)
    (he : za.entries[idx]? = some e) :
    ∃ za', (za.fileRename idx name = some za' ∨ za.fileRename idx name = none ∧ za' = za) ∧
      za'.Consistent ∧ (Mirrors ⟨za', files⟩ ↔ name = e.name ∨ ¬ za.Renames e name) := by
  by_cases hrename : za.Renames e name
  · obtain ⟨za', e', hset, hentries, hname, hconsistent'⟩ := hconsistent.fileRename he hrename
    refine ⟨za', Or.inl hset, hconsistent', ?_⟩
    rw [mirrors_set_iff hmirrors he hentries, hname]
    constructor
    · exact Or.inl
    · intro h
      rcases h with h | h
      · exact h
      · exact absurd hrename h
  · have hkept := iff_of_true hmirrors (Or.inr hrename : name = e.name ∨ ¬ za.Renames e name)
    rcases fileRename_refused he hrename with hrefused | hsame
    · exact ⟨za, Or.inr ⟨hrefused, rfl⟩, hconsistent, hkept⟩
    · exact ⟨za, Or.inl hsame, hconsistent, hkept⟩

theorem Call.mirrors_updateEntry (hconsistent : zip.archive.Consistent) (hmirrors : Mirrors zip)
    (idx : UInt64) (entry : Buffer) (newEntryName : Text) :
    (Call.apply zip (.updateEntry idx entry newEntryName)).2.archive.Consistent ∧
      (Mirrors (Call.apply zip (.updateEntry idx entry newEntryName)).2 ↔
        Call.Keeps zip.archive (.updateEntry idx entry newEntryName)) := by
  unfold Call.Keeps
  dsimp only
  by_cases hlast : idx = zipIndexLast
  · rw [if_pos hlast, hlast]
    exact mirrors_updateLast hconsistent hmirrors entry newEntryName
  · rw [if_neg hlast]
    unfold Call.apply ZipArchive.writeBufferToEntry
    dsimp only
    rw [if_pos hlast]
    cases he : zip.archive.entries[idx.toNat]? with
    | none =>
        have hreplace : zip.archive.fileReplace idx.toNat entry = none := by
          rw [Zip.fileReplace, he]
        rw [hreplace]
        exact ⟨hconsistent, iff_of_true hmirrors fun e h => by cases h⟩
    | some e =>
        obtain ⟨za', e', hreplace, hentries, hname, hnames, hconsistent'⟩ :=
          @Zip.Consistent.fileReplace _ entry hconsistent _ _ he
        have he' : za'.entries[idx.toNat]? = some e' := by
          rw [hentries, List.getElem?_set_self (List.getElem?_eq_some_iff.mp he).1]
        have hmirrors' : Mirrors ⟨za', zip.files⟩ :=
          (mirrors_set_iff hmirrors he hentries).mpr hname
        have hrenames : za'.Renames e' (cString newEntryName) ↔
            zip.archive.Renames e (cString newEntryName) := by
          unfold Zip.Renames
          rw [ZipEntry.text_congr hname, hnames]
        rw [hreplace]
        dsimp only
        by_cases hnil : newEntryName = []
        · rw [if_pos hnil]
          refine ⟨hconsistent', iff_of_true hmirrors' ?_⟩
          exact fun _ _ => Or.inl hnil
        · rw [if_neg hnil]
          -- the data is replaced already when the name is tried
          obtain ⟨za₂, hset, hconsistent₂, hiff⟩ :=
            @mirrors_fileRename _ _ _ _ (cString newEntryName) hconsistent' hmirrors' he'
          rw [hname, hrenames] at hiff
          have hkeeps : (∀ e₁, some e = some e₁ → newEntryName = [] ∨
              cString newEntryName = e₁.name ∨ ¬ zip.archive.Renames e₁ (cString newEntryName)) ↔
              cString newEntryName = e.name ∨
                ¬ zip.archive.Renames e (cString newEntryName) := by
            simp [hnil]
          rw [hkeeps, ← hiff]
          rcases hset with hset | ⟨hset, rfl⟩
          · rw [hset]
            exact ⟨hconsistent₂, Iff.rfl⟩
          · rw [hset]
            exact ⟨hconsistent₂, Iff.rfl⟩

/-- One call, from a state in which both agree. -/
theorem Call.mirrors_iff (hconsistent : zip.archive.Consistent) (hmirrors : Mirrors zip)
    (call : Call) :
    (call.apply zip).2.archive.Consistent ∧
      (Mirrors (call.apply zip).2 ↔ call.Keeps zip.archive) := by
  cases call with
  | addEntry entry entryName => exact Call.mirrors_addEntry hconsistent hmirrors entry entryName
  | updateEntry idx entry newEntryName =>
      exact Call.mirrors_updateEntry hconsistent hmirrors idx entry newEntryName

end Step

/-! ## Runs -/

/-- The calls of a run, each of which meets a condition on the state before it and
on itself. -/
def Meeting (condition : Zip → Call → Prop) (zip : ZipArchive) (call : Call)
    (zip' : ZipArchive) : Prop :=
  zip' = (call.apply zip).2 ∧ condition zip.archive call

/-- The calls of a run, after each of which both agree. -/
def Mirroring (zip : ZipArchive) (call : Call) (zip' : ZipArchive) : Prop :=
  zip' = (call.apply zip).2 ∧ Mirrors zip'

/-- The names of an archive that was opened are listed as they are stored, unless one
is converted. -/
theorem mirrors_openZip_iff {parse : Bytes → Option (List Dirent)} {file : Option Bytes}
    {overwrite : Bool} {zip : ZipArchive}
    (h : ZipArchive.openZip parse file overwrite = some zip) :
    Mirrors zip ↔ ∀ e ∈ zip.archive.entries, ¬ IsConverted e.name := by
  unfold ZipArchive.openZip at h
  obtain ⟨za, -, rfl⟩ := Option.map_eq_some_iff.mp h
  unfold Mirrors
  rw [List.map_inj_left]
  exact forall₂_congr fun e _ => nameText_eq_self_iff e.name

theorem openZip_consistent {parse : Bytes → Option (List Dirent)} {file : Option Bytes}
    {overwrite : Bool} {zip : ZipArchive}
    (h : ZipArchive.openZip parse file overwrite = some zip) : zip.archive.Consistent := by
  unfold ZipArchive.openZip at h
  obtain ⟨za, hza, rfl⟩ := Option.map_eq_some_iff.mp h
  rcases zipOpen_cases hza with rfl | ⟨rfl, bytes, dirents, -, -, -, rfl⟩
  · exact ⟨fun e he => absurd he List.not_mem_nil,
      fun name i hi => absurd hi (by simp [Zip.allocateNew])⟩
  · constructor
    · intro e he c hc
      obtain ⟨de, -, rfl⟩ := List.mem_map.mp he
      cases hc
    · intro name i hi
      have hlt := nameTable_lt hi fun h => by cases h
      simpa [originalEntries] using hlt

/-- The calls of a run keep both in step just where each of them does. -/
theorem mirroring_iff_keeps {zip zip' : ZipArchive} (hconsistent : zip.archive.Consistent)
    (hmirrors : Mirrors zip) (calls : List Call) :
    Trace Mirroring zip calls zip' ↔ Trace (Meeting Call.Keeps) zip calls zip' := by
  constructor
  · intro hrun
    suffices h : zip'.archive.Consistent ∧ Mirrors zip' ∧
        Trace (Meeting Call.Keeps) zip calls zip' from h.2.2
    refine hrun.invariant
      (fun done t => t.archive.Consistent ∧ Mirrors t ∧ Trace (Meeting Call.Keeps) zip done t)
      ⟨hconsistent, hmirrors, .nil⟩ ?_
    rintro done t call _ ⟨hconsistent, hmirrors, hdone⟩ ⟨rfl, hmirrors'⟩
    obtain ⟨hconsistent', hkeeps⟩ := call.mirrors_iff hconsistent hmirrors
    exact ⟨hconsistent', hmirrors', hdone.snoc ⟨rfl, hkeeps.mp hmirrors'⟩⟩
  · intro hrun
    suffices h : zip'.archive.Consistent ∧ Mirrors zip' ∧ Trace Mirroring zip calls zip' from h.2.2
    refine hrun.invariant
      (fun done t => t.archive.Consistent ∧ Mirrors t ∧ Trace Mirroring zip done t)
      ⟨hconsistent, hmirrors, .nil⟩ ?_
    rintro done t call _ ⟨hconsistent, hmirrors, hdone⟩ ⟨rfl, hkeeps⟩
    obtain ⟨hconsistent', hiff⟩ := call.mirrors_iff hconsistent hmirrors
    have hmirrors' := hiff.mpr hkeeps
    exact ⟨hconsistent', hmirrors', hdone.snoc ⟨rfl, hmirrors'⟩⟩

/-- **The table of names**: both agree when an archive was opened and after every call of
a run, just where no name of the file is converted and every call keeps them in step. -/
theorem mirrors_throughout_iff {parse : Bytes → Option (List Dirent)} {file : Option Bytes}
    {overwrite : Bool} {zip zip' : ZipArchive}
    (hopen : ZipArchive.openZip parse file overwrite = some zip) (calls : List Call) :
    Mirrors zip ∧ Trace Mirroring zip calls zip' ↔
      (∀ e ∈ zip.archive.entries, ¬ IsConverted e.name) ∧
        Trace (Meeting Call.Keeps) zip calls zip' := by
  rw [mirrors_openZip_iff hopen]
  exact and_congr_right fun hplain =>
    mirroring_iff_keeps (openZip_consistent hopen) ((mirrors_openZip_iff hopen).mpr hplain) calls

theorem storedText_of_plain {name : Text} (hplain : name.all isPlainByte = true)
    (hshort : name.length ≤ 0xFFFF) : storedText name = some name := by
  have htake : name.take (name.length % 2 ^ 16) = name := by
    rw [Nat.mod_eq_of_lt (by omega), List.take_length]
  unfold storedText zipStringNew
  dsimp only
  by_cases hnil : name = []
  · rw [if_pos hnil, hnil]
  · rw [if_neg hnil, htake, if_neg hnil, guessEncoding_eq_ascii hplain]
    rfl

/-- A new archive takes the name of the main module. -/
theorem keeps_addMain (buffer : Buffer) :
    Call.Keeps (.allocateNew false) (.addEntry buffer allexeMain) :=
  ⟨by decide, by decide, allexeMain, storedText_of_plain (by decide) (by decide), rfl, rfl⟩

/-- `addEntry` records the name before it asks the archive. -/
theorem files_addEntry (zip : ZipArchive) (buffer : Buffer) (name : Text) :
    (zip.addEntry buffer name).2.files = zip.files ++ [name] := by
  unfold ZipArchive.addEntry
  dsimp only
  cases zip.archive.fileAdd name buffer with
  | none => rfl
  | some za => rfl

/-- The entry of a main module. -/
def mainDirent : Dirent :=
  { Dirent.init with filename := allexeMain }

/-- No call on the archive reaches the names. -/
theorem files_writeBufferToEntry (zip : ZipArchive) (idx : UInt64) (buf : Buffer)
    (entryName : Text) : (zip.writeBufferToEntry idx buf entryName).2.files = zip.files := by
  unfold ZipArchive.writeBufferToEntry
  split
  · split
    · rfl
    · split
      · rfl
      · split
        · rfl
        · rfl
  · split
    · rfl
    · rfl

/-- The archive of a file with a main module. -/
def mainArchive : ZipArchive :=
  ⟨⟨false, originalEntries [mainDirent], Function.update (fun _ => none) allexeMain (some 0), none⟩,
    [allexeMain]⟩

theorem openZip_main :
    ZipArchive.openZip (fun _ => some [mainDirent]) (some [0]) false = some mainArchive := by
  have hmain : mainDirent.text = allexeMain := (text_eq_allexeMain_iff mainDirent).mpr rfl
  unfold ZipArchive.openZip zipOpen
  simp only [Bool.false_eq_true, if_false, List.cons_ne_nil, Option.map_some,
    map_text_originalEntries, List.map_cons, List.map_nil, hmain]
  rfl

/-- Its main module gets new data, and its renaming to a directory is refused. -/
theorem keeps_refused {zip : ZipArchive} (hmirrors : Mirrors zip)
    (hmain : zip.files.head? = some allexeMain) (buffer : Buffer) :
    Call.Keeps zip.archive (.updateEntry 0 buffer (ascii "lib/")) := by
  unfold Call.Keeps
  dsimp only
  rw [if_neg (by decide)]
  intro e he
  refine Or.inr (Or.inr ?_)
  rintro ⟨-, hdir, -⟩
  have hname : e.name = allexeMain := by
    rw [hmirrors, List.head?_map, List.head?_eq_getElem?] at hmain
    change zip.archive.entries[0]? = some e at he
    rw [he] at hmain
    exact Option.some.inj hmain
  have htext : e.text = allexeMain := (nameText_eq_iff (by decide)).mpr hname
  rw [htext] at hdir
  exact absurd hdir (by decide)

/-- The file gets a library, its main module gets new data, and the renaming of the main
module to a directory is refused. -/
theorem mirrors_throughout_iff_refused :
    ∃ zip zip', ZipArchive.openZip (fun _ => some [mainDirent]) (some [0]) false = some zip ∧
      Mirrors zip ∧ Trace Mirroring zip [.addEntry ⟨[0], 0, 0⟩ (ascii "lib.bc"),
        .updateEntry 0 ⟨[1], 0, 0⟩ [], .updateEntry 0 ⟨[2], 0, 0⟩ (ascii "lib/")] zip' := by
  have hplain : ∀ e ∈ mainArchive.archive.entries, ¬ IsConverted e.name := by
    intro e he
    rw [← nameText_eq_self_iff, List.mem_singleton.mp he]
    exact (text_eq_allexeMain_iff mainDirent).mpr rfl
  have hnames : mainArchive.archive.names (ascii "lib.bc") = none := by
    show Function.update (fun _ => none) allexeMain (some 0) (ascii "lib.bc") = none
    rw [Function.update_of_ne (by decide)]
  have hadd : Call.Keeps mainArchive.archive (.addEntry ⟨[0], 0, 0⟩ (ascii "lib.bc")) :=
    ⟨by decide, by decide, _, storedText_of_plain (by decide) (by decide), hnames, hnames⟩
  obtain ⟨hconsistent₁, hkeeps₁⟩ := Call.mirrors_iff (openZip_consistent openZip_main)
    ((mirrors_openZip_iff openZip_main).mpr hplain) (.addEntry ⟨[0], 0, 0⟩ (ascii "lib.bc"))
  set zip₁ := (Call.apply mainArchive (.addEntry ⟨[0], 0, 0⟩ (ascii "lib.bc"))).2 with hzip₁
  have hupdate : Call.Keeps zip₁.archive (.updateEntry 0 ⟨[1], 0, 0⟩ []) := by
    unfold Call.Keeps
    dsimp only
    rw [if_neg (by decide)]
    exact fun _ _ => Or.inl rfl
  obtain ⟨-, hkeeps₂⟩ := Call.mirrors_iff hconsistent₁ (hkeeps₁.mpr hadd)
    (.updateEntry 0 ⟨[1], 0, 0⟩ [])
  set zip₂ := (Call.apply zip₁ (.updateEntry 0 ⟨[1], 0, 0⟩ [])).2 with hzip₂
  have hfiles : zip₂.files = [allexeMain, ascii "lib.bc"] := by
    rw [hzip₂, Call.apply, files_writeBufferToEntry, hzip₁, Call.apply, files_writeBufferToEntry]
    rfl
  have hrefused := keeps_refused (hkeeps₂.mpr hupdate) (by rw [hfiles]; rfl)
    ⟨[2], 0, 0⟩
  have hrun : Trace (Meeting Call.Keeps) mainArchive [.addEntry ⟨[0], 0, 0⟩ (ascii "lib.bc"),
      .updateEntry 0 ⟨[1], 0, 0⟩ [], .updateEntry 0 ⟨[2], 0, 0⟩ (ascii "lib/")]
      (Call.apply zip₂ (.updateEntry 0 ⟨[2], 0, 0⟩ (ascii "lib/"))).2 :=
    ((Trace.nil.snoc ⟨rfl, hadd⟩).snoc ⟨hzip₂, hupdate⟩).snoc ⟨rfl, hrefused⟩
  exact ⟨_, _, openZip_main, (mirrors_throughout_iff openZip_main _).mpr ⟨hplain, hrun⟩⟩

/-- The main module is added twice: the second addition is refused, and its name
stays. -/
theorem name_without_entry :
    ∃ zip zip₁ zip₂, ZipArchive.openZip (fun _ => none) none false = some zip ∧
      Call.apply zip (.addEntry ⟨[], 0, 0⟩ allexeMain) = (true, zip₁) ∧
      Call.apply zip₁ (.addEntry ⟨[], 0, 0⟩ allexeMain) = (false, zip₂) ∧
      zip₂.files = [allexeMain, allexeMain] ∧ zip₂.archive.entries.length = 1 ∧
      ¬ Mirrors zip₂ := by
  have hopen : ZipArchive.openZip (fun _ => none) none false = some ⟨.allocateNew false, []⟩ := rfl
  have hconsistent := openZip_consistent hopen
  have hmirrors := (mirrors_openZip_iff hopen).mpr fun e he => absurd he List.not_mem_nil
  obtain ⟨zip₁, hadd, hnames⟩ := @addEntry_of_free ⟨.allocateNew false, []⟩ allexeMain (by decide)
    (by decide) (by decide) rfl ⟨[], 0, 0⟩
  have hfirst : Call.apply ⟨.allocateNew false, []⟩ (.addEntry ⟨[], 0, 0⟩ allexeMain) =
      (true, zip₁) := by
    rw [apply_addEntry (by decide), hadd]
  have hfiles : zip₁.files = [allexeMain] := by
    have hpushed := files_addEntry ⟨.allocateNew false, []⟩ ⟨[], 0, 0⟩ allexeMain
    rw [hadd] at hpushed
    exact hpushed
  obtain ⟨hconsistent₁, hkeeps⟩ :=
    Call.mirrors_iff hconsistent hmirrors (.addEntry ⟨[], 0, 0⟩ allexeMain)
  have hmirrors₁ := hkeeps.mpr (keeps_addMain ⟨[], 0, 0⟩)
  rw [hfirst] at hconsistent₁ hmirrors₁
  -- the name is in the table now
  have hrefused : zip₁.archive.fileAdd allexeMain ⟨[], 0, 0⟩ = none := by
    apply hconsistent₁.fileAdd_refused
    rintro ⟨str, -, hfree, -⟩
    rw [hnames, Function.update_self] at hfree
    cases hfree
  have hsecond : Call.apply zip₁ (.addEntry ⟨[], 0, 0⟩ allexeMain) =
      (false, ⟨zip₁.archive, zip₁.files ++ [allexeMain]⟩) := by
    rw [apply_addEntry (by decide), ZipArchive.addEntry, hrefused]
  refine ⟨_, zip₁, _, hopen, hfirst, hsecond, ?_, ?_, ?_⟩
  · rw [hfiles]
    rfl
  · have hlength := congrArg List.length hmirrors₁
    rw [hfiles] at hlength
    simpa using hlength.symm
  · intro h
    have hlength := congrArg List.length h
    rw [show zip₁.files = _ from hmirrors₁] at hlength
    simp at hlength

end Archive
end AllvmTools
