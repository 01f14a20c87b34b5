import AllvmTools.Archive.SessionReads

/-!
# Updating and renaming an entry

`ZipArchive::updateEntry` replaces the data of an entry first and renames it then.
The result of `zip_file_rename`, zero for success, is taken for a truth value.

* `fileRename_outcome` — the name an entry has after `zip_file_rename`.
* `updateEntry_outcome` — the data is replaced in any case, and a name that was
  taken is reported as a failure.
* `updateEntry_truthful_iff` — the result is true of what happened just where
  `TruthfulUpdate` says so.
* `renamed_and_reported_failed` — the main module gets new bytes and a new name.
-/

namespace AllvmTools
namespace Archive

open Library Library.Text Library.Files Library.Runs

/-! ## What will be written -/

/-- The data of an entry: what it was given, or what the file has for it. -/
def ZipEntry.contents (inflate : Inflate) (file : Bytes) (e : ZipEntry) : Option Bytes :=
  Slot.bytes inflate file ⟨e.orig, e.source.map Buffer.bytes⟩

/-- The contents and names that `zip_close` writes; no call deletes an entry. -/
def Zip.written (inflate : Inflate) (file : Bytes) (za : Zip) : List (Option Bytes × Text) :=
  za.entries.map fun e => (e.contents inflate file, e.name)

/-- Any call, successful or not. -/
def Calling (zip : ZipArchive) (call : Call) (zip' : ZipArchive) : Prop :=
  zip' = (call.apply zip).2

/-- The archive states: a file was opened, and any calls followed. -/
def Reached (file : Option Bytes) (zip : ZipArchive) : Prop :=
  ∃ parse overwrite zip₀ calls, ZipArchive.openZip parse file overwrite = some zip₀ ∧
    Trace Calling zip₀ calls zip

/-- The index of an entry. -/
structure ValidIndex (zip : ZipArchive) (idx : UInt64) : Prop where
  lt : idx.toNat < zip.archive.entries.length
  ne_last : idx ≠ zipIndexLast

/-- `updateEntry` returns true just where the entry has the new contents and the new
name, if one is given; where it returns false, nothing else will be written. -/
def UpdatesTruthfully (inflate : Inflate) (file : Bytes) (zip : ZipArchive) (idx : UInt64)
    (entry : Buffer) (newEntryName : Text) : Prop :=
  let (ok, zip') := Call.apply zip (.updateEntry idx entry newEntryName)
  (ok = true ↔ ∃ e', zip'.archive.entries[idx.toNat]? = some e' ∧
    e'.contents inflate file = some entry.bytes ∧
      (newEntryName ≠ [] → e'.name = newEntryName)) ∧
  (ok = false → zip'.archive.written inflate file = zip.archive.written inflate file)

/-- `zip_file_rename` accepts the name: it is not too long, it is that of a directory
just where the old one is, its string is accepted, and the table knows it at most
under this entry. -/
def Zip.TakesName (za : Zip) (idx : Nat) (e : ZipEntry) (name : Text) : Prop :=
  name.length ≤ 0xFFFF ∧ isDirName name = isDirName e.text ∧
    (storedText name).isSome = true ∧ ∀ i, za.names name = some i → i = idx

/-- No new name is given; or the entry has it already, and it is refused; or what
stands before its terminator is accepted without effect, and the data is the old. -/
def TruthfulUpdate (inflate : Inflate) (file : Bytes) (za : Zip) (idx : Nat) (e : ZipEntry)
    (entry : Buffer) (newEntryName : Text) : Prop :=
  newEntryName = [] ∨
    newEntryName = e.name ∧ ¬ za.TakesName idx e (cString newEntryName) ∨
    newEntryName ≠ e.name ∧ za.TakesName idx e (cString newEntryName) ∧
      ((za.names (cString newEntryName)).isSome = true ∨ cString newEntryName = e.name) ∧
      e.contents inflate file = some entry.bytes

/-! ## Renaming -/

section Rename

variable {za za' : Zip} {idx : Nat} {e : ZipEntry} {name : Text}

/-- A name leaves the data of the entry alone. -/
theorem setName_data (he : za.entries[idx]? = some e) (h : za.setName idx name = some za') :
    ∃ e', za'.entries = za.entries.set idx e' ∧ e'.orig = e.orig ∧ e'.source = e.source := by
  have hself : za.entries = za.entries.set idx e := by
    rw [← (List.getElem?_eq_some_iff.mp he).2, List.set_getElem_self]
  unfold Zip.setName at h
  simp only [he] at h
  split at h
  · cases h
  split at h
  · split at h
    · cases h
      exact ⟨e, hself, rfl, rfl⟩
    · cases h
  · split at h
    · cases h
    · cases h
      exact ⟨_, rfl, e.setName_data _ _⟩

theorem fileRename_data (he : za.entries[idx]? = some e)
    (h : za.fileRename idx name = some za') :
    ∃ e', za'.entries = za.entries.set idx e' ∧ e'.orig = e.orig ∧ e'.source = e.source := by
  unfold Zip.fileRename at h
  rw [he] at h
  dsimp only at h
  split at h
  · cases h
  split at h
  · cases h
  · exact setName_data he h

/-- A name that is new to the table is accepted like one that is not. -/
theorem Zip.Renames.takesName (h : za.Renames e name) : za.TakesName idx e name := by
  obtain ⟨hshort, hdir, hsome, hfree⟩ := h
  refine ⟨hshort, hdir, hsome, ?_⟩
  intro i hi
  rw [hfree] at hi
  cases hi

/-- An accepted name becomes that of the entry, unless the table has it already; any
other name is refused. -/
theorem fileRename_outcome (hconsistent : za.Consistent) (he : za.entries[idx]? = some e) :
    (za.TakesName idx e name ∧ ∃ za' e', za.fileRename idx name = some za' ∧
        za'.entries = za.entries.set idx e' ∧ e'.orig = e.orig ∧ e'.source = e.source ∧
        e'.name = (if (za.names name).isSome then e.name else name) ∧ za'.Consistent) ∨
      ¬ za.TakesName idx e name ∧ za.fileRename idx name = none := by
  by_cases hrenames : za.Renames e name
  · -- the table does not have the name yet
    obtain ⟨za', e', hset, hentries, hname, hconsistent'⟩ := hconsistent.fileRename he hrenames
    obtain ⟨e'', hentries', horig, hsource⟩ := fileRename_data he hset
    obtain rfl : e' = e'' := by
      have hlt := (List.getElem?_eq_some_iff.mp he).1
      have hat := congrArg (·[idx]?) (hentries.symm.trans hentries')
      simpa [List.getElem?_set_self hlt] using hat
    have hfree : za.names name = none := hrenames.2.2.2
    refine Or.inl ⟨hrenames.takesName, za', e', hset, hentries, horig, hsource, ?_, hconsistent'⟩
    rw [hfree, hname]
    rfl
  · by_cases htakes : za.TakesName idx e name
    · -- the table has it, under this entry
      obtain ⟨hshort, hdir, hsome, htable⟩ := htakes
      have htaken : (za.names name).isSome = true := by
        rw [Option.isSome_iff_ne_none]
        exact fun hfree => hrenames ⟨hshort, hdir, hsome, hfree⟩
      obtain ⟨i, hi⟩ := Option.isSome_iff_exists.mp htaken
      obtain ⟨str, hstr⟩ := Option.isSome_iff_exists.mp hsome
      refine Or.inl ⟨⟨hshort, hdir, hsome, htable⟩, za, e, ?_, ?_, rfl, rfl, ?_, hconsistent⟩
      · rw [Zip.fileRename, he]
        dsimp only
        rw [if_neg (by omega), if_neg (fun hne => hne hdir), setName_of_taken he hstr hi,
          if_pos (htable i hi)]
      · rw [← (List.getElem?_eq_some_iff.mp he).2, List.set_getElem_self]
      · rw [if_pos htaken]
    · refine Or.inr ⟨htakes, ?_⟩
      rcases fileRename_refused he hrenames with hrefused | hsame
      · exact hrefused
      · -- a name that was accepted without effect is one of this entry
        exfalso
        apply htakes
        unfold Zip.fileRename at hsame
        rw [he] at hsame
        dsimp only at hsame
        split at hsame
        · cases hsame
        next hshort =>
        split at hsame
        · cases hsame
        next hdir =>
        cases hstr : storedText name with
        | none =>
            rw [setName_of_refused hstr] at hsame
            cases hsame
        | some str =>
            refine ⟨by omega, not_not.mp hdir, by rw [hstr]; rfl, ?_⟩
            intro i hi
            rw [setName_of_taken he hstr hi] at hsame
            split at hsame
            · assumption
            · cases hsame

end Rename

/-! ## The states of an archive -/

section Update

variable {zip zip' : ZipArchive} {idx : UInt64} {e : ZipEntry} {entry : Buffer}
  {newEntryName : Text}

theorem Zip.Consistent.addEntry (hconsistent : zip.archive.Consistent) (entry : Buffer)
    (entryName : Text) :
    ((Call.addEntry entry entryName).apply zip).2.archive.Consistent := by
  unfold Call.apply ZipArchive.writeBufferToEntry
  dsimp only
  rw [if_neg (by simp)]
  by_cases htakes : zip.archive.TakesNew (cString entryName)
  · obtain ⟨str, hstr, hfree, hfree'⟩ := htakes
    obtain ⟨za', e', hadd, -, -, hconsistent'⟩ :=
      @Zip.Consistent.fileAdd _ _ entry hconsistent _ hstr hfree hfree'
    rw [hadd]
    exact hconsistent'
  · rw [hconsistent.fileAdd_refused htakes]
    exact hconsistent

/-- The data of an entry is replaced, whatever becomes of its name; the result is
false where a name that is given was taken. -/
theorem updateEntry_outcome (hconsistent : zip.archive.Consistent) (hlast : idx ≠ zipIndexLast)
    (he : zip.archive.entries[idx.toNat]? = some e) :
    ∃ ok za' e', Call.apply zip (.updateEntry idx entry newEntryName) =
        (ok, { zip with archive := za' }) ∧
      za'.entries = zip.archive.entries.set idx.toNat e' ∧ e'.source = some entry ∧
      za'.Consistent ∧
      (ok = false ↔ newEntryName ≠ [] ∧
        zip.archive.TakesName idx.toNat e (cString newEntryName)) ∧
      e'.name =
        if ok = true ∨ (zip.archive.names (cString newEntryName)).isSome = true then e.name
        else cString newEntryName := by
  have hlt := (List.getElem?_eq_some_iff.mp he).1
  obtain ⟨za₁, e₁, hreplace, hentries, hname, hnames, hconsistent₁⟩ :=
    @Zip.Consistent.fileReplace _ entry hconsistent _ _ he
  have hsource : e₁.source = some entry := by
    have hset : some za₁ = some _ := hreplace.symm.trans (by rw [Zip.fileReplace, he])
    rw [Option.some.inj hset] at hentries
    have hat := congrArg (·[idx.toNat]?) hentries
    simp only [List.getElem?_set_self hlt, Option.some.injEq] at hat
    rw [← hat]
    rfl
  have he₁ : za₁.entries[idx.toNat]? = some e₁ := by
    rw [hentries, List.getElem?_set_self hlt]
  unfold Call.apply ZipArchive.writeBufferToEntry
  dsimp only
  rw [if_pos hlast, hreplace]
  dsimp only
  by_cases hnil : newEntryName = []
  · rw [if_pos hnil]
    exact ⟨true, za₁, e₁, rfl, hentries, hsource, hconsistent₁,
      iff_of_false Bool.noConfusion fun h => h.1 hnil, by rw [hname, if_pos (Or.inl rfl)]⟩
  · rw [if_neg hnil]
    -- neither the name nor the table changed with the data
    have htakes : za₁.TakesName idx.toNat e₁ (cString newEntryName) ↔
        zip.archive.TakesName idx.toNat e (cString newEntryName) := by
      unfold Zip.TakesName
      rw [ZipEntry.text_congr hname, hnames]
    rcases @fileRename_outcome _ _ _ (cString newEntryName) hconsistent₁ he₁ with
      ⟨htaken, za₂, e₂, hset, hentries₂, -, hsource₂, hname₂, hconsistent₂⟩ | ⟨hrefused, hset⟩
    · rw [hset]
      refine ⟨false, za₂, e₂, rfl, ?_, hsource₂.trans hsource, hconsistent₂,
        iff_of_true rfl ⟨hnil, htakes.mp htaken⟩, ?_⟩
      · rw [hentries₂, hentries, List.set_set]
      · rw [hname₂, hnames, hname]
        simp
    · rw [hset]
      refine ⟨true, za₁, e₁, rfl, hentries, hsource, hconsistent₁,
        iff_of_false Bool.noConfusion fun h => hrefused (htakes.mpr h.2), ?_⟩
      · rw [hname, if_pos (Or.inl rfl)]

/-- An index that is not one of an entry changes nothing. -/
theorem updateEntry_no_entry (hlast : idx ≠ zipIndexLast)
    (he : zip.archive.entries[idx.toNat]? = none) :
    Call.apply zip (.updateEntry idx entry newEntryName) = (false, zip) := by
  have hreplace : zip.archive.fileReplace idx.toNat entry = none := by
    rw [Zip.fileReplace, he]
  unfold Call.apply ZipArchive.writeBufferToEntry
  dsimp only
  rw [if_pos hlast, hreplace]

theorem Zip.Consistent.apply (hconsistent : zip.archive.Consistent) (call : Call) :
    (call.apply zip).2.archive.Consistent := by
  cases call with
  | addEntry entry entryName => exact hconsistent.addEntry entry entryName
  | updateEntry idx entry newEntryName =>
      by_cases hlast : idx = zipIndexLast
      · -- the last index is an addition, but for the names
        have hadd := hconsistent.addEntry entry newEntryName
        unfold Call.apply ZipArchive.writeBufferToEntry at hadd ⊢
        dsimp only at hadd ⊢
        rw [if_neg (not_not.mpr rfl)] at hadd
        rw [if_neg (not_not.mpr hlast)]
        cases hfile : zip.archive.fileAdd (cString newEntryName) entry with
        | none => exact hconsistent
        | some za =>
            rw [hfile] at hadd
            exact hadd
      · cases he : zip.archive.entries[idx.toNat]? with
        | none =>
            rw [updateEntry_no_entry hlast he]
            exact hconsistent
        | some e =>
            obtain ⟨ok, za', e', happly, -, -, hconsistent', -⟩ :=
              @updateEntry_outcome _ _ _ entry newEntryName hconsistent hlast he
            rw [happly]
            exact hconsistent'

/-- The table of names is in order in every state. -/
theorem Reached.consistent {file : Option Bytes} (h : Reached file zip) :
    zip.archive.Consistent := by
  obtain ⟨parse, overwrite, zip₀, calls, hopen, hrun⟩ := h
  refine hrun.invariant (fun _ t => t.archive.Consistent) (openZip_consistent hopen) ?_
  rintro done t call _ hconsistent rfl
  exact hconsistent.apply call

/-! ## The result -/

/-- What will be written changes with the entry. -/
theorem written_set_iff {inflate : Inflate} {file : Bytes} {za za' : Zip} {idx : Nat}
    {e e' : ZipEntry} (he : za.entries[idx]? = some e)
    (hentries : za'.entries = za.entries.set idx e') :
    za'.written inflate file = za.written inflate file ↔
      e'.contents inflate file = e.contents inflate file ∧ e'.name = e.name := by
  have hlt := (List.getElem?_eq_some_iff.mp he).1
  unfold Zip.written
  rw [hentries, List.map_set]
  constructor
  · intro h
    have hat := congrArg (·[idx]?) h
    rw [List.getElem?_set_self (by rw [List.length_map]; exact hlt), List.getElem?_map, he] at hat
    exact Prod.mk.inj (Option.some.inj hat)
  · rintro ⟨hcontents, hname⟩
    apply List.ext_getElem?
    intro i
    by_cases hi : idx = i
    · subst hi
      rw [List.getElem?_set_self (by rw [List.length_map]; exact hlt), List.getElem?_map, he,
        hcontents, hname]
      rfl
    · rw [List.getElem?_set_ne hi]

/-- What the property says of the result and of the name that the entry has then. -/
theorem updatesTruthfully_outcome (inflate : Inflate) {file : Option Bytes}
    (hreached : Reached file zip) (hidx : ValidIndex zip idx)
    (he : zip.archive.entries[idx.toNat]? = some e) :
    ∃ ok name',
      (ok = false ↔ newEntryName ≠ [] ∧
        zip.archive.TakesName idx.toNat e (cString newEntryName)) ∧
      name' = (if ok = true ∨ (zip.archive.names (cString newEntryName)).isSome = true then e.name
        else cString newEntryName) ∧
      (UpdatesTruthfully inflate (file.getD []) zip idx entry newEntryName ↔
        (ok = true ↔ newEntryName ≠ [] → name' = newEntryName) ∧
        (ok = false → some entry.bytes = e.contents inflate (file.getD []) ∧ name' = e.name)) := by
  obtain ⟨ok, za', e', happly, hentries, hsource, -, hok, hname⟩ :=
    @updateEntry_outcome _ _ _ entry newEntryName hreached.consistent hidx.ne_last he
  have hcontents : e'.contents inflate (file.getD []) = some entry.bytes := by
    unfold ZipEntry.contents Slot.bytes
    rw [hsource]
    rfl
  have he' : za'.entries[idx.toNat]? = some e' := by
    rw [hentries, List.getElem?_set_self hidx.lt]
  have hwritten := @written_set_iff inflate (file.getD []) _ _ _ _ _ he hentries
  rw [hcontents] at hwritten
  refine ⟨ok, e'.name, hok, hname, ?_⟩
  unfold UpdatesTruthfully
  rw [happly]
  dsimp only
  rw [he', hwritten]
  simp [hcontents]

/-- **`updateEntry`**: in every state, its result is true of what happened just where
the update is a truthful one. -/
theorem updateEntry_truthful_iff (inflate : Inflate) {file : Option Bytes}
    (hreached : Reached file zip) (hidx : ValidIndex zip idx) (entry : Buffer)
    (newEntryName : Text) :
    UpdatesTruthfully inflate (file.getD []) zip idx entry newEntryName ↔
      ∀ e, zip.archive.entries[idx.toNat]? = some e →
        TruthfulUpdate inflate (file.getD []) zip.archive idx.toNat e entry newEntryName := by
  obtain ⟨e, he⟩ : ∃ e, zip.archive.entries[idx.toNat]? = some e :=
    ⟨_, List.getElem?_eq_getElem hidx.lt⟩
  obtain ⟨ok, name', hok, hname, hproperty⟩ :=
    @updatesTruthfully_outcome _ _ _ entry newEntryName inflate _ hreached hidx he
  have hcondition : (∀ e₁, zip.archive.entries[idx.toNat]? = some e₁ →
      TruthfulUpdate inflate (file.getD []) zip.archive idx.toNat e₁ entry newEntryName) ↔
      TruthfulUpdate inflate (file.getD []) zip.archive idx.toNat e entry newEntryName := by
    simp [he]
  rw [hproperty, hcondition]
  unfold TruthfulUpdate
  by_cases hnil : newEntryName = []
  · -- without a name, only the data is replaced
    have htrue : ok = true := by
      rw [← Bool.not_eq_false, hok]
      exact fun h => h.1 hnil
    simp [hnil, htrue]
  · by_cases htakes : zip.archive.TakesName idx.toNat e (cString newEntryName)
    · have hfalse : ok = false := hok.mpr ⟨hnil, htakes⟩
      subst hfalse
      by_cases htable : (zip.archive.names (cString newEntryName)).isSome = true
      · rw [if_pos (Or.inr htable)] at hname
        rw [hname]
        grind
      · rw [if_neg (by simp [htable])] at hname
        rw [hname]
        grind
    · have htrue : ok = true := by
        rw [← Bool.not_eq_false, hok]
        exact fun h => htakes h.2
      subst htrue
      rw [if_pos (Or.inl rfl)] at hname
      rw [hname]
      grind

end Update

/-- A new archive to which the main module was added. -/
theorem exists_main (buffer : Buffer) :
    ∃ zip e, Reached none zip ∧ ValidIndex zip 0 ∧ zip.archive.entries[0]? = some e ∧
      e.name = allexeMain ∧
      zip.archive.names = Function.update (fun _ => none) allexeMain (some 0) := by
  have hopen : ZipArchive.openZip (fun _ => none) none false = some ⟨.allocateNew false, []⟩ := rfl
  have hstored : storedText allexeMain = some allexeMain :=
    storedText_of_plain (by decide) (by decide)
  obtain ⟨za, e, hadd, -⟩ :=
    @Zip.Consistent.fileAdd _ _ buffer (openZip_consistent hopen) _ hstored rfl rfl
  obtain ⟨encoding, rfl⟩ := fileAdd_eq_some (fun _ _ h => by cases h) (by decide) hadd
  have hrun : Trace Calling ⟨.allocateNew false, []⟩ [.addEntry buffer allexeMain]
      ((Call.addEntry buffer allexeMain).apply ⟨.allocateNew false, []⟩).2 :=
    Trace.nil.snoc rfl
  rw [apply_addEntry (by decide), ZipArchive.addEntry, hadd] at hrun
  exact ⟨_, _, ⟨_, _, _, _, hopen, hrun⟩, ⟨Nat.one_pos, by decide⟩, rfl, rfl, rfl⟩

/-- The archive of a file that has the main module twice. -/
def doubledMain : ZipArchive :=
  ⟨⟨false, originalEntries [mainDirent, mainDirent],
      Function.update (fun _ => none) allexeMain (some 0), none⟩,
    [allexeMain, allexeMain]⟩

theorem openZip_doubledMain :
    ZipArchive.openZip (fun _ => some [mainDirent, mainDirent]) (some [0]) false =
      some doubledMain := by
  have hmain : mainDirent.text = allexeMain := (text_eq_allexeMain_iff mainDirent).mpr rfl
  unfold ZipArchive.openZip zipOpen
  simp only [Bool.false_eq_true, if_false, List.cons_ne_nil, Option.map_some,
    map_text_originalEntries, List.map_cons, List.map_nil, hmain]
  simp [nameTable, doubledMain]

/-- The second of two main modules is given its own name: that is refused, as the table
has it for the first, and the result is right.  The name `lib.bc` is taken. -/
theorem updateEntry_truthful_iff_doubledMain :
    Reached (some [0]) doubledMain ∧ ValidIndex doubledMain 1 ∧
      UpdatesTruthfully storingCodec.inflate [0] doubledMain 1 ⟨bitcode, 0, 0⟩ allexeMain ∧
      ¬ UpdatesTruthfully storingCodec.inflate [0] doubledMain 1 ⟨bitcode, 0, 0⟩
        (ascii "lib.bc") := by
  have hreached : Reached (some [0]) doubledMain := ⟨_, _, _, [], openZip_doubledMain, .nil⟩
  have hidx : ValidIndex doubledMain 1 := ⟨by decide, by decide⟩
  refine ⟨hreached, hidx, ?_, ?_⟩
  · refine (updateEntry_truthful_iff storingCodec.inflate hreached hidx _ _).mpr ?_
    rintro _ ⟨⟩
    refine Or.inr (Or.inl ⟨rfl, ?_⟩)
    rintro ⟨-, -, -, htable⟩
    have hfirst : doubledMain.archive.names (cString allexeMain) = some 0 := by decide
    exact absurd (htable 0 hfirst) (by decide)
  · intro htruthful
    have hupdate := (updateEntry_truthful_iff storingCodec.inflate hreached hidx _ _).mp htruthful
      _ rfl
    rcases hupdate with hnil | ⟨hsame, -⟩ | ⟨-, -, hknown, -⟩
    · exact absurd hnil (by decide)
    · exact absurd hsame (by decide)
    · rcases hknown with hknown | hsame
      · have hfree : doubledMain.archive.names (cString (ascii "lib.bc")) = none := by decide
        rw [hfree] at hknown
        cases hknown
      · exact absurd hsame (by decide)

/-- The main module is given new bytes and the name `lib.bc`: it has both then, and
the result is false.  The name of a directory is refused instead: the module has new
bytes under its old name, and the result is true. -/
theorem renamed_and_reported_failed :
    ∃ zip, Reached none zip ∧ ValidIndex zip 0 ∧
      ¬ UpdatesTruthfully storingCodec.inflate [] zip 0 ⟨bitcode, 0, 0⟩ (ascii "lib.bc") ∧
      ¬ UpdatesTruthfully storingCodec.inflate [] zip 0 ⟨bitcode, 0, 0⟩ (ascii "lib/") := by
  obtain ⟨zip, e, hreached, hidx, he, hname, hnames⟩ := exists_main ⟨[], 0, 0⟩
  have htext : e.text = allexeMain := (nameText_eq_iff (by decide)).mpr hname
  have hlib : cString (ascii "lib.bc") = ascii "lib.bc" := by decide
  have hdir : cString (ascii "lib/") = ascii "lib/" := by decide
  have htakes : zip.archive.TakesName 0 e (ascii "lib.bc") := by
    refine ⟨by decide, by rw [htext]; decide, ?_, ?_⟩
    · rw [storedText_of_plain (by decide) (by decide)]
      rfl
    · intro i hi
      rw [hnames, Function.update_of_ne (by decide)] at hi
      cases hi
  have hrefused : ¬ zip.archive.TakesName 0 e (ascii "lib/") := by
    rintro ⟨-, hsame, -⟩
    rw [htext] at hsame
    exact absurd hsame (by decide)
  refine ⟨zip, hreached, hidx, ?_, ?_⟩
  · obtain ⟨ok, name', hok, hname', hproperty⟩ :=
      @updatesTruthfully_outcome _ _ _ ⟨bitcode, 0, 0⟩ (ascii "lib.bc") storingCodec.inflate none
        hreached hidx he
    have hfalse : ok = false := hok.mpr ⟨by decide, by rw [hlib]; exact htakes⟩
    have hnew : name' = ascii "lib.bc" := by
      rw [hname', hfalse, hlib, hnames, Function.update_of_ne (by decide)]
      rfl
    intro htruthful
    have htrue := (hproperty.mp htruthful).1.mpr fun _ => hnew
    rw [hfalse] at htrue
    cases htrue
  · obtain ⟨ok, name', hok, hname', hproperty⟩ :=
      @updatesTruthfully_outcome _ _ _ ⟨bitcode, 0, 0⟩ (ascii "lib/") storingCodec.inflate none
        hreached hidx he
    have htrue : ok = true := by
      rw [← Bool.not_eq_false, hok, hdir]
      exact fun h => hrefused h.2
    intro htruthful
    have hnew := (hproperty.mp htruthful).1.mp htrue (by decide)
    rw [hname', if_pos (Or.inl htrue), hname] at hnew
    exact absurd hnew (by decide)

end Archive
end AllvmTools
