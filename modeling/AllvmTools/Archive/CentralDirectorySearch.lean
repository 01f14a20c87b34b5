import AllvmTools.Archive.CentralDirectory

/-!
# Which central directory is taken

`_zip_find_central_dir` as a choice: the end records in the last part of the file
are tried from front to back, a single directory that can be read is taken as it
is, and of several ones the first of those that span most.

* `parseArchive_eq` — the choice.
-/

namespace AllvmTools
namespace Archive

open Library Library.Text Library.Files Library.LittleEndian
open Library.Leaving.Program Library.Reader

/-! ## The positions that are tried -/

/-- Finding the first position again and again goes through all of them. -/
theorem filter_range'_of_find?_eq_some {q : Nat → Bool} {start count p : Nat}
    (h : (List.range count).find? (fun p => q (start + p)) = some p) :
    (List.range' start count).filter q =
      (start + p) :: (List.range' (start + p + 1) (count - (p + 1))).filter q := by
  rw [List.find?_range_eq_some] at h
  obtain ⟨hp, hmem, hfirst⟩ := h
  have hlt := List.mem_range.mp hmem
  have hsplit : List.range' start count =
      List.range' start p ++ List.range' (start + p) (count - p) := by
    rw [List.range'_append_1, Nat.add_sub_cancel' (Nat.le_of_lt hlt)]
  have hcount : count - p = count - (p + 1) + 1 := by omega
  have hnone : (List.range' start p).filter q = [] := by
    rw [List.filter_eq_nil_iff]
    intro k hk
    obtain ⟨hle, hk⟩ := List.mem_range'_1.mp hk
    have hbefore := hfirst (k - start) (by omega)
    rw [Nat.add_sub_cancel' hle] at hbefore
    simpa using hbefore
  rw [hsplit, List.filter_append, hnone, List.nil_append, hcount, List.range'_succ,
    List.filter_cons_of_pos hp]

theorem filter_range'_of_find?_eq_none {q : Nat → Bool} {start count : Nat}
    (h : (List.range count).find? (fun p => q (start + p)) = none) :
    (List.range' start count).filter q = [] := by
  rw [List.find?_range_eq_none] at h
  rw [List.filter_eq_nil_iff]
  intro k hk
  obtain ⟨hle, hk⟩ := List.mem_range'_1.mp hk
  have hnone := h (k - start) (by omega)
  rw [Nat.add_sub_cancel' hle] at hnone
  simpa using hnone

/-- The magic of an end record stands at the position. -/
def isEndRecordAt (data : Bytes) (p : Nat) : Bool :=
  decide ((data.drop p).take 4 = eocdMagic)

/-- The positions from `start` on at which an end record fits and has its magic. -/
def endRecordPositions (data : Bytes) (start : Nat) : List Nat :=
  (List.range' start (data.length - (eocdLen - 1) - start)).filter (isEndRecordAt data)

theorem nextEndRecord_eq (data : Bytes) (pos : Nat) :
    nextEndRecord data pos =
      (List.range (data.length - (eocdLen - 1) - pos)).find? fun p =>
        isEndRecordAt data (pos + p) := by
  have hmagic : eocdMagic.length = 4 := rfl
  unfold nextEndRecord zipMemmem eocdLen
  split
  · next hshort =>
    have hzero : data.length - (22 - 1) - pos = 0 := by omega
    rw [hzero]
    rfl
  · next hroom =>
    have hcount : data.length - pos - (22 - 4) - eocdMagic.length + 1 =
        data.length - (22 - 1) - pos := by omega
    rw [hcount]
    simp [isEndRecordAt, hmagic]

theorem endRecordPositions_of_some {data : Bytes} {pos p : Nat}
    (h : nextEndRecord data pos = some p) :
    endRecordPositions data pos = (pos + p) :: endRecordPositions data (pos + p + 1) := by
  rw [nextEndRecord_eq] at h
  unfold endRecordPositions
  rw [filter_range'_of_find?_eq_some h]
  congr 3
  omega

theorem endRecordPositions_of_none {data : Bytes} {pos : Nat}
    (h : nextEndRecord data pos = none) : endRecordPositions data pos = [] := by
  rw [nextEndRecord_eq] at h
  exact filter_range'_of_find?_eq_none h

/-- The search loop takes one position after the other. -/
theorem searchLoop_eq (data : Bytes) (turn : Search → Nat → Search) {fuel pos : Nat}
    (hfuel : data.length ≤ fuel + pos) (s : Search) :
    searchLoop (nextEndRecord data) turn fuel pos s =
      (endRecordPositions data pos).foldl turn s := by
  induction fuel generalizing pos s with
  | zero =>
      have hnone : endRecordPositions data pos = [] := by
        have hzero : data.length - (eocdLen - 1) - pos = 0 := by omega
        unfold endRecordPositions
        rw [hzero]
        rfl
      rw [hnone]
      rfl
  | succ fuel ih =>
      rw [searchLoop]
      split
      · next hnone => rw [endRecordPositions_of_none hnone, List.foldl_nil]
      · next p hsome =>
        have hfuel' : data.length ≤ fuel + (pos + p + 1) := by omega
        rw [endRecordPositions_of_some hsome, ih hfuel', List.foldl_cons]

/-! ## What a check may change -/

/-- An entry without its extra fields, which a check may change. -/
def ReadDirent.bare (de : ReadDirent) : ReadDirent :=
  { de with
    extraFields := []
    localExtraFieldsRead := false }

/-- A directory without the extra fields of its entries. -/
def Cdir.bare (cd : Cdir) : Cdir :=
  { cd with entries := cd.entries.map ReadDirent.bare }

@[simp] theorem bare_offset (de : ReadDirent) : de.bare.offset = de.offset :=
  rfl

@[simp] theorem bare_reach (de : ReadDirent) : de.bare.reach = de.reach :=
  rfl

@[simp] theorem headersAgree_bare (de loc : ReadDirent) :
    headersAgree de.bare loc = headersAgree de loc :=
  rfl

@[simp] theorem bare_merged (de : ReadDirent) (efs : List ExtraField) (b : Bool) :
    ReadDirent.bare { de with extraFields := efs, localExtraFieldsRead := b } = de.bare :=
  rfl

/-- A check looks at no extra field of an entry. -/
theorem checkEntries_map_bare (calendar : Calendar) (file : Bytes) (cdOffset low high : Nat)
    (entries : List ReadDirent) :
    (checkEntries calendar file cdOffset low high (entries.map ReadDirent.bare)).1 =
      (checkEntries calendar file cdOffset low high entries).1 := by
  induction entries generalizing low high with
  | nil => simp
  | cons de rest ih =>
      rw [List.map_cons, checkEntries, checkEntries]
      dsimp only
      rw [bare_offset, bare_reach]
      generalize (if de.offset < low then de.offset else low) = low'
      generalize (if high < de.reach then de.reach else high) = high'
      split
      · simp
      split
      · simp
      cases direntRead calendar false true (file.drop de.offset) with
      | error e => simp
      | ok loc =>
          dsimp only
          rw [headersAgree_bare]
          split
          · exact ih low' high'
          · simp

/-- A check changes nothing but extra fields. -/
theorem map_bare_checkEntries (calendar : Calendar) (file : Bytes) (cdOffset low high : Nat)
    (entries : List ReadDirent) :
    (checkEntries calendar file cdOffset low high entries).2.map ReadDirent.bare =
      entries.map ReadDirent.bare := by
  induction entries generalizing low high with
  | nil => simp [checkEntries]
  | cons de rest ih =>
      rw [checkEntries]
      dsimp only
      generalize (if de.offset < low then de.offset else low) = low'
      generalize (if high < de.reach then de.reach else high) = high'
      split
      · simp
      split
      · simp
      cases direntRead calendar false true (file.drop de.offset) with
      | error e => simp
      | ok loc =>
          dsimp only
          split
          · simp [ih]
          · simp

/-- The value of a check, which an implausible directory has below all others. -/
def Cdir.span (calendar : Calendar) (file : Bytes) (cd : Cdir) : Int :=
  spanCode (cd.checkcons calendar file).1

theorem start_bare (cd : Cdir) : cd.bare.start = cd.start := by
  unfold Cdir.start Cdir.bare
  cases cd.entries <;> simp

theorem checkcons_bare (calendar : Calendar) (file : Bytes) (cd : Cdir) :
    (cd.bare.checkcons calendar file).1 = (cd.checkcons calendar file).1 := by
  unfold Cdir.checkcons
  dsimp only
  rw [start_bare, show cd.bare.entries = cd.entries.map ReadDirent.bare from rfl,
    checkEntries_map_bare]
  rfl

@[simp] theorem span_bare (calendar : Calendar) (file : Bytes) (cd : Cdir) :
    cd.bare.span calendar file = cd.span calendar file := by
  unfold Cdir.span
  rw [checkcons_bare]

@[simp] theorem bare_checkcons (calendar : Calendar) (file : Bytes) (cd : Cdir) :
    (cd.checkcons calendar file).2.bare = cd.bare := by
  unfold Cdir.checkcons Cdir.bare
  dsimp only
  rw [map_bare_checkEntries]

theorem span_of_bare_eq {calendar : Calendar} {file : Bytes} {cd cd' : Cdir}
    (h : cd.bare = cd'.bare) : cd.span calendar file = cd'.span calendar file := by
  rw [← span_bare, h, span_bare]

/-! ## The choice -/

/-- The directories that can be read, in the order of their end records. -/
def readableDirs (calendar : Calendar) (file : Bytes) : List Cdir :=
  let bufOffset := bufferOffset file
  let buffer := ByteCursor.new (file.drop bufOffset)
  (endRecordPositions buffer.data (searchStart file)).filterMap fun eocdOffset =>
    (readCdir calendar file bufOffset buffer eocdOffset).toOption

/-- The first of the directories that span most. -/
def firstWidest (span : Cdir → Int) : List Cdir → Option Cdir
  | [] => none
  | cd :: rest => some (rest.foldl (fun best cd => if span best < span cd then cd else best) cd)

@[simp] theorem firstWidest_nil (span : Cdir → Int) : firstWidest span [] = none :=
  rfl

@[simp] theorem firstWidest_singleton (span : Cdir → Int) (cd : Cdir) :
    firstWidest span [cd] = some cd :=
  rfl

theorem firstWidest_eq_none_iff {span : Cdir → Int} {cds : List Cdir} :
    firstWidest span cds = none ↔ cds = [] := by
  cases cds <;> simp [firstWidest]

/-- One more directory is taken only if it spans more. -/
theorem firstWidest_concat (span : Cdir → Int) (cds : List Cdir) (cd : Cdir) :
    firstWidest span (cds ++ [cd]) =
      match firstWidest span cds with
      | none => some cd
      | some best => if span best < span cd then some cd else some best := by
  cases cds with
  | nil => simp [firstWidest]
  | cons first rest =>
      simp only [firstWidest, List.cons_append, List.foldl_append, List.foldl_cons, List.foldl_nil]
      split <;> rfl

/-- The directory that is taken is one of them. -/
theorem firstWidest_mem {span : Cdir → Int} {cds : List Cdir} {best : Cdir}
    (h : firstWidest span cds = some best) : best ∈ cds := by
  induction cds using List.reverseRecOn generalizing best with
  | nil => cases h
  | append_singleton cds cd ih =>
      rw [firstWidest_concat] at h
      split at h
      · cases h
        simp
      · next held hheld =>
        split at h <;> cases h
        · simp
        · simp [ih hheld]

/-- No directory spans more than the one that is taken. -/
theorem span_le_of_firstWidest {span : Cdir → Int} {cds : List Cdir} {best : Cdir}
    (h : firstWidest span cds = some best) {cd : Cdir} (hcd : cd ∈ cds) : span cd ≤ span best := by
  induction cds using List.reverseRecOn generalizing best with
  | nil => cases hcd
  | append_singleton cds last ih =>
      rw [firstWidest_concat] at h
      rw [List.mem_append, List.mem_singleton] at hcd
      split at h
      · next hnone =>
        cases h
        rw [firstWidest_eq_none_iff.mp hnone] at hcd
        rcases hcd with hcd | rfl
        · cases hcd
        · exact Int.le_refl _
      · next held hheld =>
        have hold : cd ∈ cds → span cd ≤ span held := ih hheld
        split at h <;> cases h
        · next hlt =>
          rcases hcd with hcd | rfl
          · have := hold hcd
            omega
          · exact Int.le_refl _
        · next hge =>
          rcases hcd with hcd | rfl
          · exact hold hcd
          · omega

/-- The choice among directories: a single one is not checked; of several ones the
first that spans most, if any is plausible. -/
def chooseDir (span : Cdir → Int) : List Cdir → Option Cdir
  | [] => none
  | [cd] => some cd
  | cds => (firstWidest span cds).filter fun cd => decide (0 ≤ span cd)

theorem chooseDir_of_two_le {span : Cdir → Int} {cds : List Cdir} (h : 2 ≤ cds.length) :
    chooseDir span cds = (firstWidest span cds).filter fun cd => decide (0 ≤ span cd) := by
  match cds, h with
  | _ :: _ :: _, _ => rfl

/-- What is chosen is one of the directories, and no other spans more. -/
theorem chooseDir_eq_some {span : Cdir → Int} {cds : List Cdir} {best : Cdir}
    (h : chooseDir span cds = some best) :
    best ∈ cds ∧ ∀ cd ∈ cds, span cd ≤ span best := by
  match cds with
  | [] => cases h
  | [cd] =>
      cases h
      simp
  | first :: second :: rest =>
      rw [chooseDir_of_two_le (by simp)] at h
      obtain ⟨hwidest, -⟩ := Option.filter_eq_some_iff.mp h
      exact ⟨firstWidest_mem hwidest, fun cd hcd => span_le_of_firstWidest hwidest hcd⟩

/-- Nothing is chosen where there is no directory, or several and none plausible. -/
theorem chooseDir_eq_none_iff {span : Cdir → Int} {cds : List Cdir} :
    chooseDir span cds = none ↔ cds.length ≠ 1 ∧ ∀ cd ∈ cds, span cd < 0 := by
  match cds with
  | [] => simp [chooseDir]
  | [cd] => simp [chooseDir]
  | first :: second :: rest =>
      rw [chooseDir_of_two_le (by simp), and_iff_right (by simp)]
      cases hwidest : firstWidest span (first :: second :: rest) with
      | none => simp [firstWidest] at hwidest
      | some best =>
          have hle : ∀ cd ∈ first :: second :: rest, span cd ≤ span best :=
            fun cd hcd => span_le_of_firstWidest hwidest hcd
          rw [Option.filter_eq_none_iff]
          constructor
          · intro h cd hcd
            have hneg := h best rfl
            have := hle cd hcd
            simp only [decide_eq_true_eq] at hneg
            omega
          · rintro h cd ⟨⟩
            have := h best (firstWidest_mem hwidest)
            simp only [decide_eq_true_eq]
            omega

/-- What the search holds after some directories. -/
structure Search.Holds (calendar : Calendar) (file : Bytes) (cds : List Cdir) (s : Search) :
    Prop where
  cdir : s.cdir.map Cdir.bare = firstWidest (Cdir.span calendar file) (cds.map Cdir.bare)
  noneYet : cds = [] → s.best = -1
  single : cds.length = 1 → s.best = 0
  several : 2 ≤ cds.length → ∀ cd ∈ s.cdir, s.best = cd.span calendar file

/-- Before it is compared, the directory that is held has its value. -/
theorem Search.Holds.recheck {calendar : Calendar} {file : Bytes} {cds : List Cdir} {s : Search}
    (h : s.Holds calendar file cds) {held : Cdir} (hheld : s.cdir = some held) :
    ∃ held' error,
      (if s.best ≤ 0 then
        (spanCode (held.checkcons calendar file).1, (held.checkcons calendar file).2,
          lastError s.error (held.checkcons calendar file).1)
      else (s.best, held, s.error)) = (held.span calendar file, held', error) ∧
      held'.bare = held.bare := by
  by_cases hbest : s.best ≤ 0
  · exact ⟨_, _, if_pos hbest, bare_checkcons calendar file held⟩
  · have hseveral : 2 ≤ cds.length := by
      rcases hlength : cds.length with _ | _ | n
      · have := h.noneYet (List.length_eq_zero_iff.mp hlength)
        omega
      · have := h.single hlength
        omega
      · omega
    refine ⟨held, s.error, ?_, rfl⟩
    rw [if_neg hbest, h.several hseveral held hheld]

theorem Search.Holds.consider {calendar : Calendar} {file : Bytes} {cds : List Cdir} {s : Search}
    (h : s.Holds calendar file cds) (cd : Cdir) :
    (s.consider calendar file cd).Holds calendar file (cds ++ [cd]) := by
  have hwidest := h.cdir
  unfold Search.consider
  cases hcdir : s.cdir with
  | none =>
      rw [hcdir, Option.map_none] at hwidest
      have hnil : cds = [] := by
        simpa using firstWidest_eq_none_iff.mp hwidest.symm
      subst hnil
      exact ⟨by simp, by simp, by simp, by simp⟩
  | some held =>
      rw [hcdir, Option.map_some] at hwidest
      have hne : cds ≠ [] := by
        rintro rfl
        simp at hwidest
      have hpos : 0 < cds.length := List.length_pos_iff.mpr hne
      obtain ⟨held', error, hrecheck, hbare⟩ := h.recheck hcdir
      have hspan : held'.span calendar file = held.span calendar file := span_of_bare_eq hbare
      dsimp only
      rw [hrecheck]
      dsimp only
      have hnew := bare_checkcons calendar file cd
      have hnewSpan : (cd.checkcons calendar file).2.span calendar file = cd.span calendar file :=
        span_of_bare_eq hnew
      rw [show spanCode (cd.checkcons calendar file).1 = cd.span calendar file from rfl]
      split
      · next hlt =>
        refine ⟨?_, by simp, fun hlength => ?_, fun _ cd' hcd' => ?_⟩
        · rw [List.map_append, List.map_singleton, firstWidest_concat, ← hwidest]
          simp [hnew, hlt]
        · rw [List.length_append, List.length_singleton] at hlength
          omega
        · cases hcd'
          exact hnewSpan.symm
      · next hle =>
        refine ⟨?_, by simp, fun hlength => ?_, fun _ cd' hcd' => ?_⟩
        · rw [List.map_append, List.map_singleton, firstWidest_concat, ← hwidest]
          simp [hbare, hle]
        · rw [List.length_append, List.length_singleton] at hlength
          omega
        · cases hcd'
          exact hspan.symm

/-- The search holds the choice among the directories that could be read. -/
theorem Search.Holds.foldl {calendar : Calendar} {file : Bytes} {cds : List Cdir} {s : Search}
    (h : s.Holds calendar file cds) (results : List (Except ZipError Cdir)) :
    (results.foldl (Search.step calendar file) s).Holds calendar file
      (cds ++ results.filterMap Except.toOption) := by
  induction results generalizing cds s with
  | nil => simpa using h
  | cons result rest ih =>
      rw [List.foldl_cons]
      cases result with
      | error e =>
          have hstep : (s.step calendar file (.error e)).Holds calendar file cds :=
            ⟨h.cdir, h.noneYet, h.single, h.several⟩
          exact ih hstep
      | ok cd =>
          have hstep := ih (h.consider cd)
          rw [List.append_assoc] at hstep
          simpa [Except.toOption, Search.step] using hstep

/-- What is held at the end is the choice. -/
theorem Search.Holds.choose {calendar : Calendar} {file : Bytes} {cds : List Cdir} {s : Search}
    (h : s.Holds calendar file cds) :
    (if s.best < 0 then none else s.cdir.map Cdir.bare) =
      chooseDir (Cdir.span calendar file) (cds.map Cdir.bare) := by
  have hwidest := h.cdir
  match hcds : cds with
  | [] =>
      rw [if_pos (by rw [h.noneYet rfl]; omega)]
      rfl
  | [cd] =>
      rw [if_neg (by rw [h.single rfl]; omega), hwidest]
      rfl
  | cd :: cd' :: rest =>
      rw [chooseDir_of_two_le (by simp), ← hwidest]
      cases hheld : s.cdir with
      | none =>
          rw [hheld] at hwidest
          have hnil := firstWidest_eq_none_iff.mp hwidest.symm
          simp at hnil
      | some held =>
          have hbest := h.several (by simp) held hheld
          rw [hbest, Option.map_some]
          by_cases hneg : held.span calendar file < 0
          · have hfail : ¬ 0 ≤ held.span calendar file := by omega
            simp [hneg, hfail, Option.filter]
          · have hpos : 0 ≤ held.span calendar file := by omega
            simp [hneg, hpos, Option.filter]

/-- The directory that is taken, up to the extra fields a check may have changed. -/
theorem map_bare_findCentralDir (calendar : Calendar) (file : Bytes) :
    (findCentralDir calendar file).toOption.map Cdir.bare =
      chooseDir (Cdir.span calendar file) ((readableDirs calendar file).map Cdir.bare) := by
  unfold findCentralDir
  split
  · next hshort =>
    have hnone : readableDirs calendar file = [] := by
      have hzero : file.length - bufferOffset file - (eocdLen - 1) - searchStart file = 0 := by
        omega
      simp [readableDirs, endRecordPositions, ByteCursor.new, ByteCursor.data, hzero]
    rw [hnone]
    rfl
  · dsimp only
    rw [searchLoop_eq _ _ (Nat.le_add_right _ _)]
    have hstart : (Search.mk (-1) none .nozip).Holds calendar file [] :=
      ⟨by simp, by simp, by simp, by simp⟩
    have hholds := (hstart.foldl ((endRecordPositions
      (ByteCursor.new (file.drop (bufferOffset file))).data (searchStart file)).map (readCdir calendar file (bufferOffset file)
        (.new (file.drop (bufferOffset file)))))).choose
    rw [List.nil_append, List.filterMap_map, List.foldl_map] at hholds
    rw [readableDirs]
    refine Eq.trans ?_ hholds
    split
    · rfl
    · split
      · next hnone =>
        rw [hnone]
        rfl
      · next hsome =>
        rw [hsome]
        rfl

@[simp] theorem dirent_bare (calendar : Calendar) (de : ReadDirent) :
    de.bare.dirent calendar = de.dirent calendar :=
  rfl

theorem parseArchive_of_bare {calendar : Calendar} {file : Bytes} {chosen : Option Cdir}
    (h : (findCentralDir calendar file).toOption.map Cdir.bare = chosen) :
    parseArchive calendar file =
      chosen.map fun cd => cd.entries.map (ReadDirent.dirent calendar) := by
  subst h
  unfold parseArchive
  rw [Option.map_map]
  congr 1
  funext cd
  simp [Cdir.bare]

/-- **Which directory is taken**: of the directories that can be read from the end
records in the last part of the file, a single one; of several ones the first that
spans most; and none if none of these is plausible. -/
theorem parseArchive_eq (calendar : Calendar) (file : Bytes) :
    parseArchive calendar file =
      (chooseDir (Cdir.span calendar file) ((readableDirs calendar file).map Cdir.bare)).map
        fun cd => cd.entries.map (ReadDirent.dirent calendar) :=
  parseArchive_of_bare (map_bare_findCentralDir calendar file)

end Archive
end AllvmTools
