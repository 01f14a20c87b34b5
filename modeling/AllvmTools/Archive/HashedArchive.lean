import AllvmTools.Archive.CentralDirectorySearch
import AllvmTools.Archive.NameLookup

/-!
# Archives with their hash table

`_zip_set_name`, `zip_file_add`, `zip_file_rename` and the calls of `ZipArchive` over
the hash table in which an archive finds its names.

* `Stands.setName` — they decide by the answers of the table as `Zip` does by its
  function.
* `hashed_answers` — along every run of calls the results, the entries and the names
  are those of `ZipArchive`.
-/

namespace AllvmTools
namespace Archive

open Library Library.Files Library.Machines

/-! ## The archive -/

/-- `entry` and `names` of `struct zip`. -/
structure HashedZip where
  entries : List ZipEntry
  names : ZipHash

namespace HashedZip

/-- `_zip_set_name`. -/
def setName (za : HashedZip) (idx : Nat) (name : Text) : Bool × HashedZip :=
  match za.entries[idx]? with
  | none => (false, za)
  | some e =>
      match (if name = [] then some ([], Encoding.ascii) else zipStringNew name) with
      | none => (false, za)
      | some (str, encoding) =>
          match za.names.lookup name false with
          | .ok i => (i == idx, za)
          | .error _ =>
              let newName := nameText str
              let oldName := e.text
              match za.names.add newName idx false with
              | (.error _, names) => (false, { za with names := names })
              | (.ok _, names) =>
                  (true, {
                    entries := za.entries.set idx (e.setName str encoding)
                    names := if oldName = [] then names else (names.delete oldName).2 })

/-- `zip_file_replace`. -/
def fileReplace (za : HashedZip) (idx : Nat) (source : Buffer) : Bool × HashedZip :=
  match za.entries[idx]? with
  | none => (false, za)
  | some e => (true, { za with entries := za.entries.set idx (e.setSource source) })

/-- `zip_file_add`; an entry whose name is refused is taken back. -/
def fileAdd (za : HashedZip) (name : Text) (source : Buffer) : Bool × HashedZip :=
  match ({ za with entries := za.entries ++ [ZipEntry.init] }).setName za.entries.length name with
  | (false, za') => (false, { za' with entries := za.entries })
  | (true, za') => za'.fileReplace za.entries.length source

/-- `zip_file_rename`. -/
def fileRename (za : HashedZip) (idx : Nat) (name : Text) : Bool × HashedZip :=
  match za.entries[idx]? with
  | none => (false, za)
  | some e =>
      if 0xFFFF < name.length then (false, za)
      else if isDirName name ≠ isDirName e.text then (false, za)
      else za.setName idx name

end HashedZip

/-- `ZipArchive` over such an archive. -/
structure HashedArchive where
  archive : HashedZip
  files : List Text

/-- `ZipArchive::writeBufferToEntry`. -/
def HashedArchive.writeBufferToEntry (zip : HashedArchive) (idx : UInt64) (buf : Buffer)
    (entryName : Text) : Bool × HashedArchive :=
  if idx ≠ zipIndexLast then
    match zip.archive.fileReplace idx.toNat buf with
    | (false, za) => (false, { zip with archive := za })
    | (true, za) =>
        if entryName = [] then
          (true, { zip with archive := za })
        else
          -- the result of `zip_file_rename` is taken for a truth value
          let (renamed, za) := za.fileRename idx.toNat (cString entryName)
          (!renamed, { zip with archive := za })
  else
    let (added, za) := zip.archive.fileAdd (cString entryName) buf
    (added, { zip with archive := za })

/-- `ZipArchive::addEntry` and `ZipArchive::updateEntry`. -/
def HashedArchive.apply (zip : HashedArchive) : Call → Bool × HashedArchive
  | .addEntry entry entryName =>
      { zip with files := zip.files ++ [entryName] }.writeBufferToEntry zipIndexLast entry entryName
  | .updateEntry idx entry newEntryName => zip.writeBufferToEntry idx entry newEntryName

/-- An archive that was opened, with the table that `_zip_open` made. -/
def ZipArchive.hashed (zip : ZipArchive) : HashedArchive :=
  ⟨⟨zip.archive.entries,
      (answers ZipHash.call .new (openCalls (zip.archive.entries.map ZipEntry.text))).2⟩,
    zip.files⟩

/-! ## What it stands for -/

/-- The table holds the current index of every name. -/
structure Stands (hashed : HashedZip) (za : Zip) : Prop where
  entries : hashed.entries = za.entries
  valid : hashed.names.Valid
  current : ∀ name, 0 ∉ name → hashed.names.index.current name = za.names name
  consistent : za.Consistent
  plain : ∀ e ∈ za.entries, 0 ∉ e.text

/-- A function on both: they agree whether it succeeds, and stand for each other
afterwards.  Where it fails, the archive is what it was. -/
structure Agree (outcome : Bool × HashedZip) (za : Zip) (model : Option Zip) : Prop where
  result : outcome.1 = model.isSome
  stands : Stands outcome.2 (model.getD za)

theorem storedText_subset {name str : Text} (h : storedText name = some str) : str ⊆ name := by
  unfold storedText at h
  split at h
  · cases h
    exact List.nil_subset _
  · obtain ⟨⟨str', encoding⟩, hstring, rfl⟩ := Option.map_eq_some_iff.mp h
    unfold zipStringNew at hstring
    dsimp only at hstring
    split at hstring
    · cases hstring
    · split at hstring
      · cases hstring
        exact List.take_subset _ _
      · cases hstring
        exact List.take_subset _ _
      · cases hstring

section SetName

variable {hashed : HashedZip} {za : Zip} {idx : Nat} {name : Text}

theorem Stands.lookup (h : Stands hashed za) (hname : 0 ∉ name) :
    hashed.names.lookup name false = (za.names name).elim (.error .noent) .ok := by
  rw [h.valid.lookup_refines, cString_of_plain hname, NameIndex.lookup, if_neg (by simp),
    h.current name hname]

/-- The new name is added and the old one deleted. -/
theorem Stands.renamed (h : Stands hashed za) {str oldName : Text} (hstr : 0 ∉ str)
    (hold : 0 ∉ oldName) (hidx : idx ≤ int64Max) (hfree : za.names str = none) :
    (hashed.names.add str idx false).1 = .ok () ∧ ∀ hash', hash' = (if oldName = [] then
        (hashed.names.add str idx false).2
        else ((hashed.names.add str idx false).2.delete oldName).2) →
      hash'.Valid ∧ ∀ n, 0 ∉ n → hash'.index.current n = (if oldName = [] then
        Function.update za.names str (some idx)
        else Function.update (Function.update za.names str (some idx)) oldName none) n := by
  obtain ⟨hanswer, hindex, hvalid⟩ := h.valid.add_agrees str idx false
  rw [cString_of_plain hstr, NameIndex.add, if_neg (by omega), h.current str hstr, hfree,
    if_neg (by simp)] at hanswer hindex
  refine ⟨hanswer, ?_⟩
  have hadded : ∀ n, 0 ∉ n → (hashed.names.add str idx false).2.index.current n =
      Function.update za.names str (some idx) n := by
    intro n hn
    rw [hindex]
    show Function.update hashed.names.index.current str (some idx) n = _
    rw [Function.update_apply, Function.update_apply, h.current n hn]
  rintro _ rfl
  by_cases hnil : oldName = []
  · rw [if_pos hnil, if_pos hnil]
    exact ⟨hvalid, hadded⟩
  · rw [if_neg hnil, if_neg hnil]
    obtain ⟨-, hindex', hvalid'⟩ := hvalid.delete_agrees oldName
    refine ⟨hvalid', fun n hn => ?_⟩
    rw [hindex', cString_of_plain hold, NameIndex.delete]
    split
    · next hunknown =>
        -- the old name was in no table, so nothing is deleted
        rw [Function.update_apply, ← hadded n hn]
        split
        · next hsame => rw [hsame, hunknown.2]
        · rfl
    · show Function.update (hashed.names.add str idx false).2.index.current oldName none n = _
      rw [Function.update_apply, Function.update_apply, hadded n hn]

/-- A name that is in use is not added. -/
theorem Stands.taken (h : Stands hashed za) {str : Text} (hstr : 0 ∉ str)
    (hidx : idx ≤ int64Max) (htaken : (za.names str).isSome = true) :
    (hashed.names.add str idx false).1 = .error .existing ∧
      Stands ⟨za.entries, (hashed.names.add str idx false).2⟩ za := by
  obtain ⟨hanswer, hindex, hvalid⟩ := h.valid.add_agrees str idx false
  rw [cString_of_plain hstr, NameIndex.add, if_neg (by omega), h.current str hstr, htaken,
    if_pos (by simp)] at hanswer hindex
  exact ⟨hanswer, rfl, hvalid, fun n hn => by rw [hindex, h.current n hn], h.consistent,
    h.plain⟩

/-- An entry got a string that is new to the table. -/
theorem Stands.setEntry (h : Stands hashed za) {e : ZipEntry} (he : za.entries[idx]? = some e)
    {str : Text} {encoding : Encoding} (hstr : nameText str = str) (hplain : 0 ∉ str)
    {names : ZipHash} (hvalid : names.Valid)
    (hcurrent : ∀ n, 0 ∉ n → names.index.current n = (if e.text = [] then
      Function.update za.names str (some idx)
      else Function.update (Function.update za.names str (some idx)) e.text none) n) :
    Stands ⟨za.entries.set idx (e.setName str encoding), names⟩ { za with
      entries := za.entries.set idx (e.setName str encoding)
      names := if e.text = [] then Function.update za.names str (some idx)
        else Function.update (Function.update za.names str (some idx)) e.text none } := by
  have hmem := List.mem_of_getElem? he
  obtain ⟨hkept, hname⟩ := (h.consistent.kept e hmem).setName str encoding
  refine ⟨rfl, hvalid, hcurrent, ⟨fun e₁ he₁ => ?_, fun n i hi => ?_⟩, fun e₁ he₁ => ?_⟩
  · rcases List.mem_or_eq_of_mem_set he₁ with hold | rfl
    · exact h.consistent.kept e₁ hold
    · exact hkept
  · rw [List.length_set]
    rcases names_renamed hi with rfl | hold
    · exact (List.getElem?_eq_some_iff.mp he).1
    · exact h.consistent.names n i hold
  · rcases List.mem_or_eq_of_mem_set he₁ with hold | rfl
    · exact h.plain e₁ hold
    · rwa [ZipEntry.text, hname, hstr]

/-- **Setting a name**: the table decides as the function in its place does. -/
theorem Stands.setName (h : Stands hashed za) (hname : 0 ∉ name) (hidx : idx ≤ int64Max) :
    Agree (hashed.setName idx name) za (za.setName idx name) := by
  unfold HashedZip.setName
  rw [h.entries]
  cases he : za.entries[idx]? with
  | none =>
      have hrefused : za.setName idx name = none := by
        unfold Zip.setName
        rw [he]
      rw [hrefused]
      exact ⟨rfl, h⟩
  | some e =>
      dsimp only
      cases hstored : storedText name with
      | none =>
          rw [setName_of_refused hstored]
          unfold storedText at hstored
          split at hstored
          · cases hstored
          next hne =>
            rw [if_neg hne, Option.map_eq_none_iff.mp hstored]
            exact ⟨rfl, h⟩
      | some str =>
          have hplain : 0 ∉ str := fun hmem => hname (storedText_subset hstored hmem)
          obtain ⟨encoding, hstring⟩ := exists_encoding hstored
          have htext := nameText_of_string hstring
          rw [hstring]
          dsimp only
          rw [h.lookup hname, htext]
          cases hknown : za.names name with
          | some i =>
              rw [setName_of_taken he hstored hknown]
              dsimp only [Option.elim_some]
              by_cases hsame : i = idx
              · rw [if_pos hsame]
                exact ⟨by simpa using hsame, h⟩
              · rw [if_neg hsame]
                exact ⟨by simpa using hsame, h⟩
          | none =>
              dsimp only [Option.elim_none]
              cases htaken : (za.names str).isSome with
              | true =>
                  obtain ⟨hanswer, hstands⟩ := h.taken hplain hidx htaken
                  rw [setName_of_cut he hstored hknown htaken]
                  rcases hadd : hashed.names.add str idx false with ⟨answer, names⟩
                  rw [hadd] at hanswer hstands
                  cases hanswer
                  exact ⟨rfl, hstands⟩
              | false =>
                  have hfree : za.names str = none :=
                    Option.isNone_iff_eq_none.mp (Option.isSome_eq_false_iff.mp htaken)
                  obtain ⟨hanswer, hdone⟩ :=
                    h.renamed hplain (h.plain e (List.mem_of_getElem? he)) hidx hfree
                  rw [setName_of_new he hstring hknown hfree]
                  rcases hadd : hashed.names.add str idx false with ⟨answer, names⟩
                  rw [hadd] at hanswer hdone
                  cases hanswer
                  obtain ⟨hvalid, hcurrent⟩ := hdone _ rfl
                  exact ⟨rfl, h.setEntry he htext hplain hvalid hcurrent⟩

end SetName

/-! ## Calls -/

section Calls

variable {hashed : HashedZip} {za : Zip} {idx : Nat} {name : Text}

theorem length_setName {za' : Zip} (h : za.setName idx name = some za') :
    za'.entries.length = za.entries.length := by
  unfold Zip.setName at h
  split at h
  · cases h
  · split at h
    · cases h
    · split at h
      · split at h
        · cases h
          rfl
        · cases h
      · dsimp only at h
        split at h
        · cases h
        · rw [← Option.some.inj h]
          exact List.length_set

/-- New data changes no name. -/
theorem Stands.fileReplace (h : Stands hashed za) (buffer : Buffer) :
    Agree (hashed.fileReplace idx buffer) za (za.fileReplace idx buffer) ∧
      ((za.fileReplace idx buffer).getD za).entries.length = za.entries.length := by
  unfold HashedZip.fileReplace Zip.fileReplace
  rw [h.entries]
  cases he : za.entries[idx]? with
  | none => exact ⟨⟨rfl, h⟩, rfl⟩
  | some e =>
      have hmem := List.mem_of_getElem? he
      obtain ⟨hkept, hname⟩ := (h.consistent.kept e hmem).setSource buffer
      refine ⟨⟨rfl, rfl, h.valid, h.current, ⟨fun e₁ he₁ => ?_, fun n i hi => ?_⟩,
        fun e₁ he₁ => ?_⟩, List.length_set⟩
      · rcases List.mem_or_eq_of_mem_set he₁ with hold | rfl
        · exact h.consistent.kept e₁ hold
        · exact hkept
      · rw [Option.getD_some, List.length_set]
        exact h.consistent.names n i hi
      · rcases List.mem_or_eq_of_mem_set he₁ with hold | rfl
        · exact h.plain e₁ hold
        · rw [ZipEntry.text_congr hname]
          exact h.plain e hmem

/-- **Adding an entry**. -/
theorem Stands.fileAdd (h : Stands hashed za) (hname : 0 ∉ name)
    (hlength : za.entries.length ≤ int64Max) (buffer : Buffer) :
    Agree (hashed.fileAdd name buffer) za (za.fileAdd name buffer) ∧
      ((za.fileAdd name buffer).getD za).entries.length ≤ za.entries.length + 1 := by
  -- the entry without a name is there when its name is set
  have hgrown : Stands { hashed with entries := za.entries ++ [ZipEntry.init] }
      { za with entries := za.entries ++ [ZipEntry.init] } := by
    refine ⟨rfl, h.valid, h.current, ⟨fun e he => ?_, fun n i hi => ?_⟩, fun e he => ?_⟩
    · rcases List.mem_append.mp he with hold | hnew
      · exact h.consistent.kept e hold
      · rw [List.mem_singleton.mp hnew]
        exact fun c hc => by cases hc
    · have hlt := h.consistent.names n i hi
      simp only [List.length_append, List.length_singleton]
      omega
    · rcases List.mem_append.mp he with hold | hnew
      · exact h.plain e hold
      · rw [List.mem_singleton.mp hnew, text_init]
        exact List.not_mem_nil
  obtain ⟨hresult, hstands⟩ := hgrown.setName hname hlength
  unfold HashedZip.fileAdd Zip.fileAdd
  rw [h.entries]
  rcases hset : ({ hashed with entries := za.entries ++ [ZipEntry.init] } : HashedZip).setName
    za.entries.length name with ⟨named, hashed'⟩
  rw [hset] at hresult hstands
  cases hmodel : ({ za with entries := za.entries ++ [ZipEntry.init] } : Zip).setName
      za.entries.length name with
  | none =>
      rw [hmodel] at hresult hstands
      cases hresult
      exact ⟨⟨rfl, rfl, hstands.valid, hstands.current, h.consistent, h.plain⟩, Nat.le_succ _⟩
  | some za' =>
      rw [hmodel] at hresult hstands
      cases hresult
      have hlength' := length_setName hmodel
      rw [List.length_append, List.length_singleton] at hlength'
      have hlt : za.entries.length < za'.entries.length := by omega
      obtain ⟨hagree, hsame⟩ := @Stands.fileReplace _ _ za.entries.length hstands buffer
      have hreplace : (za'.fileReplace za.entries.length buffer).isSome = true := by
        rw [Zip.fileReplace, List.getElem?_eq_getElem hlt]
        rfl
      obtain ⟨za'', hza''⟩ := Option.isSome_iff_exists.mp hreplace
      dsimp only [Option.getD_some] at hagree hsame ⊢
      rw [hza''] at hagree hsame ⊢
      exact ⟨⟨hagree.result, hagree.stands⟩, (hsame.trans hlength').le⟩

/-- **Renaming an entry**. -/
theorem Stands.fileRename (h : Stands hashed za) (hname : 0 ∉ name) (hidx : idx ≤ int64Max) :
    Agree (hashed.fileRename idx name) za (za.fileRename idx name) ∧
      ((za.fileRename idx name).getD za).entries.length = za.entries.length := by
  unfold HashedZip.fileRename Zip.fileRename
  rw [h.entries]
  cases he : za.entries[idx]? with
  | none => exact ⟨⟨rfl, h⟩, rfl⟩
  | some e =>
      dsimp only
      by_cases hlong : 0xFFFF < name.length
      · rw [if_pos hlong, if_pos hlong]
        exact ⟨⟨rfl, h⟩, rfl⟩
      · rw [if_neg hlong, if_neg hlong]
        by_cases hdir : isDirName name ≠ isDirName e.text
        · rw [if_pos hdir, if_pos hdir]
          exact ⟨⟨rfl, h⟩, rfl⟩
        · rw [if_neg hdir, if_neg hdir]
          refine ⟨h.setName hname hidx, ?_⟩
          cases hset : za.setName idx name with
          | none => rfl
          | some za' => exact length_setName hset

end Calls

/-! ## Runs -/

/-- The archives stand for each other, and there is room for some more entries. -/
structure Simulates (room : Nat) (hashed : HashedArchive) (zip : ZipArchive) : Prop where
  archive : Stands hashed.archive zip.archive
  files : hashed.files = zip.files
  room : zip.archive.entries.length + room ≤ int64Max

section Step

variable {room : Nat} {hashed : HashedArchive} {zip : ZipArchive}

theorem not_mem_cString (name : Text) : 0 ∉ cString name := by
  intro hmem
  simpa using List.mem_takeWhile_imp hmem

theorem Simulates.addition (h : Simulates (room + 1) hashed zip) (buf : Buffer)
    (entryName : Text) :
    (hashed.writeBufferToEntry zipIndexLast buf entryName).1 =
        (zip.writeBufferToEntry zipIndexLast buf entryName).1 ∧
      Simulates room (hashed.writeBufferToEntry zipIndexLast buf entryName).2
        (zip.writeBufferToEntry zipIndexLast buf entryName).2 := by
  have hroom := h.room
  obtain ⟨⟨hresult, hstands⟩, hlength⟩ :=
    h.archive.fileAdd (not_mem_cString entryName) (by omega) buf
  unfold HashedArchive.writeBufferToEntry ZipArchive.writeBufferToEntry
  rw [if_neg (not_not.mpr rfl), if_neg (not_not.mpr rfl)]
  cases hmodel : zip.archive.fileAdd (cString entryName) buf with
  | none =>
      rw [hmodel] at hresult hstands
      exact ⟨hresult, hstands, h.files, by dsimp only; omega⟩
  | some za =>
      rw [hmodel] at hresult hstands hlength
      exact ⟨hresult, hstands, h.files, by dsimp only [Option.getD_some] at hlength ⊢; omega⟩

theorem Simulates.replacement (h : Simulates (room + 1) hashed zip) {idx : UInt64}
    (hidx : idx ≠ zipIndexLast) (buf : Buffer) (entryName : Text) :
    (hashed.writeBufferToEntry idx buf entryName).1 =
        (zip.writeBufferToEntry idx buf entryName).1 ∧
      Simulates room (hashed.writeBufferToEntry idx buf entryName).2
        (zip.writeBufferToEntry idx buf entryName).2 := by
  have hroom := h.room
  obtain ⟨⟨hresult, hstands⟩, hlength⟩ := @Stands.fileReplace _ _ idx.toNat h.archive buf
  unfold HashedArchive.writeBufferToEntry ZipArchive.writeBufferToEntry
  rw [if_pos hidx, if_pos hidx]
  rcases hreplace : hashed.archive.fileReplace idx.toNat buf with ⟨replaced, hashed'⟩
  rw [hreplace] at hresult hstands
  cases hmodel : zip.archive.fileReplace idx.toNat buf with
  | none =>
      rw [hmodel] at hresult hstands
      cases hresult
      exact ⟨rfl, hstands, h.files, by dsimp only; omega⟩
  | some za =>
      rw [hmodel] at hresult hstands hlength
      cases hresult
      dsimp only [Option.getD_some] at hstands hlength ⊢
      by_cases hnil : entryName = []
      · rw [if_pos hnil, if_pos hnil]
        exact ⟨rfl, hstands, h.files, by dsimp only; omega⟩
      · rw [if_neg hnil, if_neg hnil]
        -- the index is one of an entry, so it is in range
        have hlt : idx.toNat < zip.archive.entries.length := by
          by_contra hge
          rw [Zip.fileReplace, List.getElem?_eq_none (by omega)] at hmodel
          cases hmodel
        obtain ⟨⟨hrenamed, hstands'⟩, hlength'⟩ :=
          @Stands.fileRename _ _ idx.toNat _ hstands (not_mem_cString entryName) (by omega)
        cases hrename : za.fileRename idx.toNat (cString entryName) with
        | none =>
            rw [hrename] at hrenamed hstands'
            refine ⟨by rw [hrenamed]; rfl, hstands', h.files, by dsimp only; omega⟩
        | some za' =>
            rw [hrename] at hrenamed hstands' hlength'
            refine ⟨by rw [hrenamed]; rfl, hstands', h.files, ?_⟩
            dsimp only [Option.getD_some] at hlength' ⊢
            omega

/-- **One call**: the table gives its result and its archive. -/
theorem Simulates.step (h : Simulates (room + 1) hashed zip) (call : Call) :
    (hashed.apply call).1 = (call.apply zip).1 ∧
      Simulates room (hashed.apply call).2 (call.apply zip).2 := by
  have hwrite (idx : UInt64) (buf : Buffer) (entryName : Text) {hashed : HashedArchive}
      {zip : ZipArchive} (h : Simulates (room + 1) hashed zip) :
      (hashed.writeBufferToEntry idx buf entryName).1 =
          (zip.writeBufferToEntry idx buf entryName).1 ∧
        Simulates room (hashed.writeBufferToEntry idx buf entryName).2
          (zip.writeBufferToEntry idx buf entryName).2 := by
    by_cases hidx : idx = zipIndexLast
    · rw [hidx]
      exact h.addition buf entryName
    · exact h.replacement hidx buf entryName
  cases call with
  | addEntry entry entryName =>
      exact hwrite _ entry entryName
        ⟨h.archive, congrArg (· ++ [entryName]) h.files, h.room⟩
  | updateEntry idx entry newEntryName => exact hwrite idx entry newEntryName h

end Step

/-- The names that the parser finds have texts without NUL bytes. -/
theorem plain_parseArchive {calendar : Calendar} {file : Bytes} {dirents : List Dirent}
    (h : parseArchive calendar file = some dirents) : ∀ de ∈ dirents, 0 ∉ de.text := by
  rw [parseArchive_eq] at h
  obtain ⟨best, hbest, rfl⟩ := Option.map_eq_some_iff.mp h
  obtain ⟨cd, hcd, rfl⟩ := List.mem_map.mp (chooseDir_eq_some hbest).1
  unfold readableDirs at hcd
  obtain ⟨eocdOffset, -, hread⟩ := List.mem_filterMap.mp hcd
  intro de hde
  obtain ⟨bare, hbare, rfl⟩ := List.mem_map.mp hde
  obtain ⟨read, hmem, rfl⟩ := List.mem_map.mp hbare
  have hsound : ∀ s ∈ read.filename, s.Sound := by
    cases hcdir : readCdir calendar file (bufferOffset file)
        (ByteCursor.new (file.drop (bufferOffset file))) eocdOffset with
    | error e =>
        rw [hcdir] at hread
        cases hread
    | ok found =>
        rw [hcdir] at hread
        cases hread
        exact sound_of_readCdir hcdir read hmem
  rw [dirent_bare, text_dirent calendar hsound]
  exact zero_notMem_of_guessEncoding (guessEncoding_text hsound)

/-- An archive is opened with its table. -/
theorem simulates_hashed {calendar : Calendar} {file : Option Bytes} {overwrite : Bool}
    {zip : ZipArchive}
    (hopen : ZipArchive.openZip (parseArchive calendar) file overwrite = some zip) {room : Nat}
    (hroom : zip.archive.entries.length + room ≤ int64Max) :
    Simulates room zip.hashed zip := by
  have hconsistent := openZip_consistent hopen
  unfold ZipArchive.openZip at hopen
  obtain ⟨za, hza, rfl⟩ := Option.map_eq_some_iff.mp hopen
  have hplain : ∀ e ∈ za.entries, 0 ∉ e.text := by
    rcases zipOpen_cases hza with rfl | ⟨-, bytes, dirents, -, -, hparse, rfl⟩
    · exact fun e he => absurd he List.not_mem_nil
    · intro e he
      obtain ⟨de, hde, rfl⟩ := List.mem_map.mp he
      exact plain_parseArchive hparse de hde
  have htexts : ∀ name ∈ za.entries.map ZipEntry.text, 0 ∉ name := by
    intro name hname
    obtain ⟨e, he, rfl⟩ := List.mem_map.mp hname
    exact hplain e he
  have hnames : nameTable 0 (za.entries.map ZipEntry.text) (fun _ => none) = za.names := by
    rcases zipOpen_cases hza with rfl | ⟨-, bytes, dirents, -, -, hparse, rfl⟩
    · rfl
    · rw [map_text_originalEntries]
  have hlength : (za.entries.map ZipEntry.text).length ≤ int64Max := by
    rw [List.length_map]
    dsimp only at hroom
    omega
  refine ⟨⟨rfl, (answers_new _).2.2, fun name _ => ?_, hconsistent, hplain⟩, rfl, hroom⟩
  show (answers ZipHash.call .new (openCalls (za.entries.map ZipEntry.text))).2.index.current
    name = za.names name
  rw [index_opened hlength, map_cString htexts, hnames]

/-- **Runs of calls**: `_zip_set_name` over the hash table gives the results of all calls,
the entries and the names, and the table finds a name where the function in its place
has it. -/
theorem hashed_answers {calendar : Calendar} {file : Option Bytes} {overwrite : Bool}
    {zip : ZipArchive}
    (hopen : ZipArchive.openZip (parseArchive calendar) file overwrite = some zip)
    (calls : List Call) (hroom : zip.archive.entries.length + calls.length ≤ int64Max) :
    let hashed := answers HashedArchive.apply zip.hashed calls
    let model := answers Call.apply zip calls
    hashed.1 = model.1 ∧ hashed.2.archive.entries = model.2.archive.entries ∧
      hashed.2.files = model.2.files ∧
      ∀ name, 0 ∉ name → hashed.2.archive.names.lookup name false =
        (model.2.archive.names name).elim (.error .noent) .ok := by
  obtain ⟨hresults, hend⟩ := answers_simulate (fun _ _ _ call h => h.step call) calls
    (simulates_hashed hopen hroom)
  exact ⟨hresults, hend.archive.entries, hend.files, fun name hname => hend.archive.lookup hname⟩

/-- An archive of an entry without a name. -/
def unnamedArchive : Bytes :=
  centralMagic ++ List.replicate 42 0 ++
    (eocdMagic ++ [0, 0, 0, 0, 1, 0, 1, 0, 46, 0, 0, 0, 0, 0, 0, 0, 0, 0])

/-- The entry gets a name, which then is refused to a new entry until the first one has
another name. -/
theorem hashed_answers_unnamed :
    ∃ zip, ZipArchive.openZip (parseArchive firstDay) (some unnamedArchive) false = some zip ∧
      (answers HashedArchive.apply zip.hashed
        [.updateEntry 0 ⟨[], 0, 0⟩ (ascii "a"), .addEntry ⟨[], 0, 0⟩ (ascii "a"),
          .updateEntry 0 ⟨[], 0, 0⟩ (ascii "b"), .addEntry ⟨[], 0, 0⟩ (ascii "a")]).1 =
        [false, false, false, true] := by
  have hmodel : (ZipArchive.openZip (parseArchive firstDay) (some unnamedArchive) false).map
      (fun zip => ((answers Call.apply zip
        [.updateEntry 0 ⟨[], 0, 0⟩ (ascii "a"), .addEntry ⟨[], 0, 0⟩ (ascii "a"),
          .updateEntry 0 ⟨[], 0, 0⟩ (ascii "b"), .addEntry ⟨[], 0, 0⟩ (ascii "a")]).1,
        zip.archive.entries.length)) = some ([false, false, false, true], 1) := by
    decide +kernel
  obtain ⟨zip, hopen, hresults⟩ := Option.map_eq_some_iff.mp hmodel
  obtain ⟨hanswers, hlength⟩ := Prod.mk.inj hresults
  refine ⟨zip, hopen, ?_⟩
  rw [(hashed_answers hopen _ (by rw [hlength]; decide)).1, hanswers]

end Archive
end AllvmTools
