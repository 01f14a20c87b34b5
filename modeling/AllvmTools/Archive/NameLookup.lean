import AllvmTools.Archive.DirectoryRecords
import AllvmTools.Archive.NameEncoding
import AllvmTools.Archive.ZipHash

/-!
# Names of an archive in the hash table

How an archive uses its hash table: `_zip_open` fills it, and `zip_unchange_all`
reverts it.

* `lookup_listed` — after opening, a name has the index at which it is listed first.
* `revert_restores` — a reverted table answers as it did after opening.
-/

namespace AllvmTools
namespace Archive

open Library Library.Files Library.Machines Library.Runs

/-! ## Opening -/

/-- The loop of `_zip_open` over the texts of a directory; one that exists already is no
error. -/
def addNames : Nat → List Text → List HashCall
  | _, [] => []
  | idx, name :: rest => .add name idx true :: addNames (idx + 1) rest

/-- The calls of `_zip_open` on the new table. -/
def openCalls (names : List Text) : List HashCall :=
  .reserveCapacity names.length :: addNames 0 names

/-- The names added to a table of which nothing was deleted. -/
theorem answers_addNames {idx : Nat} {names : List Text} {table : Text → Option Nat}
    (hlength : idx + names.length ≤ int64Max) :
    (answers NameIndex.call ⟨table, table⟩ (addNames idx names)).2 =
      ⟨nameTable idx (names.map cString) table, nameTable idx (names.map cString) table⟩ := by
  induction names generalizing idx table with
  | nil => rfl
  | cons name rest ih =>
      rw [List.length_cons] at hlength
      rw [addNames, answers_cons, List.map_cons, nameTable, ← ih (by omega)]
      show (answers NameIndex.call (NameIndex.add _ (cString name) idx true).2 _).2 = _
      unfold NameIndex.add
      rw [if_neg (by omega)]
      cases hknown : table (cString name) with
      | some i => simp [hknown]
      | none => simp [hknown]

theorem index_opened {names : List Text} (hlength : names.length ≤ int64Max) :
    (answers ZipHash.call .new (openCalls names)).2.index =
      ⟨nameTable 0 (names.map cString) fun _ => none,
        nameTable 0 (names.map cString) fun _ => none⟩ := by
  rw [(answers_new _).2.1, openCalls, answers_cons]
  exact answers_addNames (by omega)

/-- The table of names points to the first entry with a name. -/
theorem nameTable_eq (idx : Nat) (names : List Text) (table : Text → Option Nat) (name : Text) :
    nameTable idx names table name =
      (table name).or ((names.findIdx? (· = name)).map (idx + ·)) := by
  induction names generalizing idx table with
  | nil => simp [nameTable]
  | cons listed rest ih =>
      rw [nameTable, ih, List.findIdx?_cons]
      by_cases hname : listed = name
      · subst hname
        cases hknown : table listed with
        | some i => simp [hknown]
        | none => simp
      · have hother : (if (table listed).isSome then table
            else Function.update table listed (some idx)) name = table name := by
          split
          · rfl
          · exact Function.update_of_ne (Ne.symm hname) _ _
        rw [hother, decide_eq_false hname]
        simp [Function.comp_def, Nat.add_comm, Nat.add_left_comm]

/-- Texts without NUL bytes are entered whole. -/
theorem map_cString {names : List Text} (h : ∀ name ∈ names, 0 ∉ name) :
    names.map cString = names := by
  rw [List.map_congr_left fun name hname => cString_of_plain (h name hname), List.map_id']

/-- A name is found, under either flag, at the first entry whose name is the same up to
its terminator. -/
theorem lookup_openCalls {names : List Text} (hlength : names.length ≤ int64Max) (name : Text)
    (unchanged : Bool) :
    (answers ZipHash.call .new (openCalls names)).2.lookup name unchanged =
      (names.findIdx? fun listed => cString listed = cString name).elim (.error .noent) .ok := by
  rw [(answers_new _).2.2.lookup_refines, index_opened hlength]
  unfold NameIndex.lookup
  dsimp only
  rw [ite_self, nameTable_eq, List.findIdx?_map]
  simp only [Option.none_or, Function.comp_def, Nat.zero_add, Option.map_id']

/-! ## The names that are entered -/

/-- The file list of `ZipArchive::open`: the texts of the names, or `none` where a name
has none. -/
def fileList (des : List ReadDirent) : Option (List Text) :=
  des.mapM fun de => (stringGet de.filename false false).map Prod.fst

/-- The loop of `_zip_open` on the entries that were read; it ends at a name that has no
text. -/
def openHash (des : List ReadDirent) : Option ZipHash :=
  (fileList des).map fun names => (answers ZipHash.call .new (openCalls names)).2

/-- The text of an entry's name. -/
def ReadDirent.text (de : ReadDirent) : Text :=
  (de.filename.map fun s => s.text false).getD []

theorem stringGet_filename {de : ReadDirent} (h : ∀ s ∈ de.filename, s.Sound) :
    stringGet de.filename false false = some (de.text, de.text.length) := by
  unfold ReadDirent.text
  cases hname : de.filename with
  | none => rfl
  | some s => exact (h s hname).stringGet_eq false

theorem fileList_eq {des : List ReadDirent} (h : ∀ de ∈ des, ∀ s ∈ de.filename, s.Sound) :
    fileList des = some (des.map ReadDirent.text) := by
  unfold fileList
  induction des with
  | nil => rfl
  | cons de rest ih =>
      rw [List.forall_mem_cons] at h
      rw [List.mapM_cons, ih h.2, stringGet_filename h.1]
      rfl

theorem guessEncoding_text {de : ReadDirent} (h : ∀ s ∈ de.filename, s.Sound) :
    guessEncoding de.text ≠ .cp437 := by
  unfold ReadDirent.text
  cases hname : de.filename with
  | none => simp [guessEncoding]
  | some s => exact (h s hname).guessEncoding_text false

/-- In memory, the entry has the text that is listed. -/
theorem text_dirent (calendar : Calendar) {de : ReadDirent} (h : ∀ s ∈ de.filename, s.Sound) :
    (de.dirent calendar).text = de.text := by
  unfold Dirent.text ReadDirent.dirent ReadDirent.text
  cases hname : de.filename with
  | none => exact nameText_nil
  | some s =>
      have hguess := (h s hname).guess
      simp [nameText, ZipString.text, ZipString.isConverted, hguess]

theorem sound_of_readEntries {calendar : Calendar} {fromBuffer isZip64 : Bool}
    {fuel i nentry left : Nat} {bytes : Bytes} {des : List ReadDirent} {nentry' left' : Nat}
    (h : readEntries calendar fromBuffer isZip64 fuel i nentry left bytes =
      .ok (des, nentry', left')) : ∀ de ∈ des, ∀ s ∈ de.filename, s.Sound := by
  induction fuel generalizing i nentry left bytes des with
  | zero => cases h
  | succ fuel ih =>
      rw [readEntries] at h
      split at h
      · cases h
        exact fun _ hde => absurd hde List.not_mem_nil
      split at h
      · cases h
        exact fun _ hde => absurd hde List.not_mem_nil
      dsimp only at h
      split at h
      · cases h
      split at h
      · cases h
      next de n hread =>
      split at h
      · cases h
      next rest _ _ hrest =>
        cases h
        rw [List.forall_mem_cons]
        exact ⟨sound_of_direntRead hread, ih hrest⟩

theorem sound_of_readCdir {calendar : Calendar} {file : Bytes} {bufOffset : Nat}
    {buffer : ByteCursor} {eocdOffset : Nat} {cd : Cdir}
    (h : readCdir calendar file bufOffset buffer eocdOffset = .ok cd) :
    ∀ de ∈ cd.entries, ∀ s ∈ de.filename, s.Sound := by
  obtain ⟨-, -, r, -, -, -, hdirectory, -⟩ := readCdir_eq_ok_iff.mp h
  unfold EndRecord.readDirectory at hdirectory
  split at hdirectory
  · split at hdirectory
    · cases hdirectory
    next data _ => exact sound_of_readEntries hdirectory
  · exact sound_of_readEntries hdirectory

/-- **Names that are listed**: every entry of a directory that is read has a name in the
file list, which no NUL byte cuts and which is ASCII or UTF-8; looking a name up gives
the first position at which it is listed. -/
theorem lookup_listed {calendar : Calendar} {file : Bytes} {bufOffset : Nat}
    {buffer : ByteCursor} {eocdOffset : Nat} {cd : Cdir}
    (h : readCdir calendar file bufOffset buffer eocdOffset = .ok cd)
    (hlength : cd.entries.length ≤ int64Max) :
    ∃ names hash, fileList cd.entries = some names ∧ openHash cd.entries = some hash ∧
      names.length = cd.entries.length ∧
      (∀ name ∈ names, 0 ∉ name ∧ guessEncoding name ≠ .cp437) ∧
      ∀ name unchanged, hash.lookup name unchanged =
        (names.findIdx? fun listed => listed = cString name).elim (.error .noent) .ok := by
  have hsound := sound_of_readCdir h
  have hlist := fileList_eq hsound
  have hplain : ∀ name ∈ cd.entries.map ReadDirent.text,
      0 ∉ name ∧ guessEncoding name ≠ .cp437 := by
    intro name hname
    obtain ⟨de, hde, rfl⟩ := List.mem_map.mp hname
    have hguess := guessEncoding_text (hsound de hde)
    exact ⟨zero_notMem_of_guessEncoding hguess, hguess⟩
  have hlen : (cd.entries.map ReadDirent.text).length = cd.entries.length := List.length_map _
  generalize cd.entries.map ReadDirent.text = names at hlist hplain hlen
  refine ⟨names, _, hlist, by rw [openHash, hlist, Option.map_some], hlen, hplain, ?_⟩
  intro name unchanged
  have hcut : names.map cString = names := map_cString fun name hname => (hplain name hname).1
  rw [lookup_openCalls (by omega)]
  nth_rewrite 2 [← hcut]
  rw [List.findIdx?_map]
  rfl

/-- An archive of three entries: two have one byte of the code page as their name, and
the one between them has no name. -/
def accentArchive : Bytes :=
  centralMagic ++ List.replicate 24 0 ++ 1 :: List.replicate 17 0 ++ 0x82 ::
    (centralMagic ++ List.replicate 42 0 ++
      (centralMagic ++ List.replicate 24 0 ++ 1 :: List.replicate 17 0 ++ 0x82 ::
        (eocdMagic ++ [0, 0, 0, 0, 3, 0, 3, 0, 140, 0, 0, 0, 0, 0, 0, 0, 0, 0])))

/-- The accent is found at the first of its entries, and the missing name at its own. -/
theorem lookup_listed_accent :
    ∃ cd hash, readCdir firstDay accentArchive 0 (.new accentArchive) 140 = .ok cd ∧
      openHash cd.entries = some hash ∧ fileList cd.entries = some [[0xC3, 0xA9], [], [0xC3, 0xA9]] ∧
      hash.lookup [0xC3, 0xA9] false = .ok 0 ∧ hash.lookup [] false = .ok 1 := by
  have hread : ∃ cd, readCdir firstDay accentArchive 0 (.new accentArchive) 140 = .ok cd ∧
      cd.entries.map ReadDirent.filename = [some ⟨[0x82], none⟩, none, some ⟨[0x82], none⟩] := by
    have hnames : (readCdir firstDay accentArchive 0 (.new accentArchive) 140).toOption.map
        (fun cd => cd.entries.map ReadDirent.filename) =
        some [some ⟨[0x82], none⟩, none, some ⟨[0x82], none⟩] := by decide +kernel
    cases hcd : readCdir firstDay accentArchive 0 (.new accentArchive) 140 with
    | error e =>
        rw [hcd] at hnames
        cases hnames
    | ok cd =>
        rw [hcd] at hnames
        exact ⟨cd, rfl, Option.some.inj hnames⟩
  obtain ⟨cd, hread, hentries⟩ := hread
  have hlength : cd.entries.length = 3 := by
    rw [← List.length_map ReadDirent.filename, hentries]
    rfl
  have hlist : fileList cd.entries = some [[0xC3, 0xA9], [], [0xC3, 0xA9]] := by
    have htext : ZipString.text ⟨[0x82], none⟩ false = [0xC3, 0xA9] := text_accent
    have htexts : cd.entries.map ReadDirent.text =
        (cd.entries.map ReadDirent.filename).map fun s => (s.map fun s => s.text false).getD [] := by
      rw [List.map_map]
      rfl
    rw [fileList_eq (sound_of_readCdir hread), htexts, hentries]
    simp [htext]
  obtain ⟨names, hash, hnames, hopen, -, -, hlookup⟩ :=
    lookup_listed hread (by rw [hlength]; decide)
  rw [hlist] at hnames
  cases hnames
  refine ⟨cd, hash, hread, hopen, hlist, ?_, ?_⟩
  · rw [hlookup]
    rfl
  · rw [hlookup]
    rfl

/-! ## Reverting -/

/-- A call that changes no index of the file. -/
def HashCall.KeepsOrig : HashCall → Prop
  | .add _ _ unchanged => unchanged = false
  | _ => True

theorem orig_call {names : NameIndex} {call : HashCall} (h : call.KeepsOrig) :
    (names.call call).2.orig = names.orig := by
  cases call with
  | add name index unchanged =>
      cases h
      show (names.add (cString name) index false).2.orig = names.orig
      unfold NameIndex.add
      split
      · rfl
      · split
        · rfl
        · rfl
  | delete name =>
      show (names.delete (cString name)).2.orig = names.orig
      unfold NameIndex.delete
      split
      · rfl
      · rfl
  | lookup name unchanged => rfl
  | reserveCapacity capacity => rfl
  | revert => rfl

/-- **Reverting**: after any calls that add no name of the file, a reverted table
answers as it did when the archive was opened. -/
theorem revert_restores {names : List Text} (hlength : names.length ≤ int64Max)
    {calls : List HashCall} (hcalls : ∀ call ∈ calls, call.KeepsOrig) (name : Text)
    (unchanged : Bool) :
    (answers ZipHash.call .new (openCalls names ++ calls ++ [.revert])).2.lookup name unchanged =
      (answers ZipHash.call .new (openCalls names)).2.lookup name unchanged := by
  rw [(answers_new _).2.2.lookup_refines, (answers_new _).2.2.lookup_refines]
  have hopened := index_opened hlength
  rw [(answers_new _).2.1] at hopened
  rw [(answers_new _).2.1, (answers_new _).2.1, answers_append, answers_append, hopened]
  generalize (nameTable 0 (names.map cString) fun _ => none) = table
  have horig : (answers NameIndex.call ⟨table, table⟩ calls).2.orig = table :=
    @answers_invariant _ _ _ (fun ix : NameIndex => ix.orig = table) _ _
      (fun ix call hcall hix => (orig_call (hcalls call hcall)).trans hix) _ rfl
  show ((answers NameIndex.call ⟨table, table⟩ calls).2.revert).lookup _ _ = _
  rw [NameIndex.revert, horig]

theorem revert_restores_main :
    (answers ZipHash.call .new (openCalls [allexeMain] ++
      [.delete allexeMain, .add allexeMain 1 false] ++ [.revert])).2.lookup allexeMain false =
      .ok 0 := by
  rw [revert_restores (by decide) (by simp [HashCall.KeepsOrig]),
    (answers_new _).2.2.lookup_refines, index_opened (by decide)]
  decide

end Archive
end AllvmTools
