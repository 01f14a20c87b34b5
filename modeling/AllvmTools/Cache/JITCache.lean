import Mathlib.Data.Set.Basic
import AllvmTools.Library.FileSystem
import AllvmTools.Library.Runs
import AllvmTools.Cache.CacheNames

/-!
# The JIT object cache

`notifyObjectCompiled`, `hasObjectFor` and `getObject` over a file system, and
the soundness of the cache over whole sequences of stores.

* `cacheFile_of_extension` — with a `.` in the name part the computed file is
  the directory, the CRC, and a name that no longer decides anything.
* `Stored` — the invariant of a sequence of stores: every file found for an
  identifier holds an object of a store under the same CRC.
* `sound_iff_extension` — the cache is sound for a vocabulary of entry names
  exactly when each of them has a `.` in its file-name part.
-/

namespace AllvmTools
namespace Cache
namespace JITCache

open Library Library.Text Library.Paths Library.Files Library.Runs

/-- The extension of cached objects. -/
def objectExt : Text := ascii ".o"

/-- `JITCache::getCacheFilename`. -/
def getCacheFilename (dir : CacheDirectory) (modID : Text) :
    Except StdException (Option Text) :=
  Cache.getCacheFilename objectExt dir modID

/-- `JITCache::notifyObjectCompiled`.  Whether the output stream could be opened
is the environment's; when it could not, the error is dropped. -/
def notifyObjectCompiled (dir : CacheDirectory) (fs : FileSystem) (modID : Text)
    (obj : Bytes) (opened : Bool) : Except StdException FileSystem := do
  match ← getCacheFilename dir modID with
  | none => return fs
  | some cacheName =>
      if opened then
        return fs.write (resolve cacheName) obj
      else
        return fs

/-- `JITCache::getObject`. -/
def getObject (dir : CacheDirectory) (fs : FileSystem) (modID : Text) :
    Except StdException (Option Bytes) := do
  match ← getCacheFilename dir modID with
  | none => return none
  | some cacheName => return fs (resolve cacheName)

/-- `JITCache::hasObjectFor`: it loads the file only to see that it is there. -/
def hasObjectFor (dir : CacheDirectory) (fs : FileSystem) (modID : Text) :
    Except StdException Bool := do
  match ← getCacheFilename dir modID with
  | none => return false
  | some cacheName => return (fs (resolve cacheName)).isSome

/-- One store: the entry a module was loaded from, its object, and whether the
file could be opened. -/
structure Call where
  name : Text
  crc : UInt32
  obj : Bytes
  opened : Bool

/-- The module identifier is set by `doJITExec` to the generated name. -/
def Call.run (dir : CacheDirectory) (fs : FileSystem) (call : Call) :
    Except StdException FileSystem :=
  notifyObjectCompiled dir fs (generateName call.name call.crc) call.obj call.opened

/-- A sequence of stores. -/
def runCalls (dir : CacheDirectory) (calls : List Call) (fs : FileSystem) :
    Except StdException FileSystem :=
  calls.foldlM (Call.run dir) fs

/-- The soundness of the cache in `dir` for entries whose names are in `names`. -/
structure Sound (dir : Text) (names : Set Text) : Prop where
  /-- No store aborts. -/
  noAbort : ∀ (calls : List Call) (fs : FileSystem), (∀ call ∈ calls, call.name ∈ names) →
    ∃ fs', runCalls (.ofString dir) calls fs = .ok fs'
  /-- No lookup aborts. -/
  noAbortGet : ∀ name ∈ names, ∀ (crc : UInt32) (fs : FileSystem),
    ∃ found, getObject (.ofString dir) fs (generateName name crc) = .ok found
  /-- Every computed file lies below the directory. -/
  under : ∀ name ∈ names, ∀ (crc : UInt32) (file : Text),
    getCacheFilename (.ofString dir) (generateName name crc) = .ok (some file) →
      LiesUnder dir file
  /-- What is found was stored under the same CRC. -/
  found : ∀ (calls : List Call) (fs fs' : FileSystem), Fresh dir fs →
    (∀ call ∈ calls, call.name ∈ names) → runCalls (.ofString dir) calls fs = .ok fs' →
    ∀ name ∈ names, ∀ (crc : UInt32) (bytes : Bytes),
      getObject (.ofString dir) fs' (generateName name crc) = .ok (some bytes) →
        ∃ call ∈ calls, call.crc = crc ∧ call.opened ∧ call.obj = bytes
  /-- Different CRCs never share a file. -/
  distinct : ∀ name ∈ names, ∀ name' ∈ names, ∀ (crc crc' : UInt32) (file file' : Text),
    getCacheFilename (.ofString dir) (generateName name crc) = .ok (some file) →
    getCacheFilename (.ofString dir) (generateName name' crc') = .ok (some file') →
      resolve file = resolve file' → crc = crc'

/-! ## The computed file of a name with an extension -/

/-- The part below the directory: only the CRC and the stem of the name are left. -/
def cacheFile (dir : CacheDirectory) (crc : UInt32) (stem : Text) : Text :=
  dir.path ++ (utohexstr crc ++ dash :: (stem ++ objectExt))

theorem cacheFile_of_extension {name : Text} (dir : CacheDirectory)
    (hname : dot ∈ filename name) :
    ∃ stem suffix, filename name = stem ++ dot :: suffix ∧
      ∀ crc, getCacheFilename dir (generateName name crc) =
        .ok (some (cacheFile dir crc stem)) := by
  obtain ⟨stem, suffix, hsplit, hsuffix⟩ := exists_split_of_mem hname
  refine ⟨stem, suffix, hsplit, fun crc => ?_⟩
  exact getCacheFilename_of_extension dir crc ((namePart_eq_filename name).trans hsplit) hsuffix

/-- A text closed by the extension is not the parent reference. -/
theorem append_objectExt_ne_parentRef (stem : Text) : stem ++ objectExt ≠ parentRef := by
  intro h
  have hlast := congrArg List.getLast? h
  have hext : objectExt = [46, 111] := rfl
  rw [hext] at hlast
  simp [parentRef, dot] at hlast

/-- The separators a stem can hold all stand at its front. -/
theorem parentRef_not_mem_tail {name stem suffix part : Text} {parts : List Text}
    (hname : filename name = stem ++ dot :: suffix)
    (hparts : splitSlash (stem ++ objectExt) = part :: parts) : parentRef ∉ parts := by
  have hext : slash ∉ objectExt := by decide
  rcases filename_cases name with hfree | hroot | ⟨rest, hnet, hrest⟩
  · -- without separators the file is a single part
    rw [hname] at hfree
    have hstem : slash ∉ stem ++ objectExt := by
      simp only [List.mem_append, not_or] at hfree ⊢
      exact ⟨hfree.1, hext⟩
    rw [splitSlash_of_not_mem hstem] at hparts
    obtain ⟨-, rfl⟩ := List.cons.inj hparts
    simp
  · -- the root has no dot
    rw [hname] at hroot
    cases stem with
    | nil => exact absurd (List.cons.inj hroot).1 (by decide)
    | cons b stem => exact absurd (List.cons.inj hroot).2 (by simp)
  · -- a root name: the part behind it ends with the extension
    rw [hname] at hnet
    obtain ⟨stem', rfl⟩ : ∃ stem', stem = slash :: slash :: stem' := by
      rcases stem with _ | ⟨b, _ | ⟨b', stem'⟩⟩
      · exact absurd (List.cons.inj hnet).1 (by decide)
      · exact absurd (List.cons.inj (List.cons.inj hnet).2).1 (by decide)
      · obtain ⟨hb, htail⟩ := List.cons.inj hnet
        obtain ⟨hb', -⟩ := List.cons.inj htail
        exact ⟨stem', by rw [hb, hb']⟩
    have hstem : slash ∉ stem' ++ objectExt := by
      simp only [List.cons_append, List.cons.injEq, true_and] at hnet
      rw [← hnet] at hrest
      simp only [List.mem_append, not_or] at hrest ⊢
      exact ⟨hrest.1, hext⟩
    simp only [List.cons_append, splitSlash, if_true, splitSlash_of_not_mem hstem] at hparts
    obtain ⟨-, rfl⟩ := List.cons.inj hparts
    simp only [List.mem_cons, List.not_mem_nil, or_false, not_or]
    exact ⟨by decide, (append_objectExt_ne_parentRef stem').symm⟩

/-- The computed file lies below the directory. -/
theorem cacheFile_liesUnder {name stem suffix : Text} (dir : Text) (crc : UInt32)
    (hname : filename name = stem ++ dot :: suffix) :
    LiesUnder dir (cacheFile (.ofString dir) crc stem) := by
  obtain ⟨part, parts, hsplit, hcomponents⟩ := components_cacheSubdir crc (stem ++ objectExt)
  have hfile := resolve_append (CacheDirectory.ofString dir)
    (head_cacheSubdir crc (stem ++ objectExt))
  rw [resolve_ofString, hcomponents] at hfile
  refine ⟨by rw [cacheFile, hfile], _, List.cons_ne_nil _ _, by rw [cacheFile, hfile], ?_⟩
  simp only [List.mem_cons, List.mem_filter, not_or, not_and]
  refine ⟨?_, fun hmem => absurd hmem (parentRef_not_mem_tail hname hsplit)⟩
  -- the first component holds the dash behind the CRC
  intro hfirst
  have hdash : dash ∈ parentRef := by
    rw [hfirst]
    simp
  exact absurd hdash (by decide)

/-! ## Sequences of stores -/

/-- **The invariant of a sequence of stores**: a file found for one of the names
holds an object stored under the same CRC. -/
def Stored (dir : Text) (names : Set Text) (done : List Call) (fs : FileSystem) : Prop :=
  ∀ name ∈ names, ∀ (crc : UInt32) (file : Text) (bytes : Bytes),
    getCacheFilename (.ofString dir) (generateName name crc) = .ok (some file) →
    fs (resolve file) = some bytes →
      ∃ call ∈ done, call.crc = crc ∧ call.opened ∧ call.obj = bytes

/-- What one store does. -/
theorem Call.run_eq_ok {dir : CacheDirectory} {fs fs' : FileSystem} {call : Call}
    {file : Text}
    (hfile : getCacheFilename dir (generateName call.name call.crc) = .ok (some file))
    (hrun : call.run dir fs = .ok fs') :
    (call.opened = true ∧ fs' = fs.write (resolve file) call.obj) ∨
      (call.opened = false ∧ fs' = fs) := by
  unfold Call.run notifyObjectCompiled at hrun
  rw [hfile] at hrun
  cases hopened : call.opened with
  | true =>
      left
      simpa [hopened, bind, Except.bind, pure, Except.pure, eq_comm] using hrun
  | false =>
      right
      simpa [hopened, bind, Except.bind, pure, Except.pure, eq_comm] using hrun

/-- Two files computed for names with an extension meet only for equal CRCs. -/
theorem crc_eq_of_file_eq {dir : CacheDirectory} {name name' file file' : Text}
    {crc crc' : UInt32} (hname : dot ∈ filename name) (hname' : dot ∈ filename name')
    (hfile : getCacheFilename dir (generateName name crc) = .ok (some file))
    (hfile' : getCacheFilename dir (generateName name' crc') = .ok (some file'))
    (heq : resolve file = resolve file') : crc = crc' := by
  obtain ⟨stem, -, -, hall⟩ := cacheFile_of_extension dir hname
  obtain ⟨stem', -, -, hall'⟩ := cacheFile_of_extension dir hname'
  rw [hall crc] at hfile
  rw [hall' crc'] at hfile'
  obtain rfl := Option.some.inj (Except.ok.inj hfile)
  obtain rfl := Option.some.inj (Except.ok.inj hfile')
  exact crc_eq_of_resolve_eq dir heq

/-- One store keeps the invariant. -/
theorem stored_step {dir : Text} {names : Set Text} (hnames : ∀ n ∈ names, dot ∈ filename n)
    (done : List Call) (fs : FileSystem) (call : Call) (fs' : FileSystem)
    (hcall : call.name ∈ names) (hstored : Stored dir names done fs)
    (hrun : call.run (.ofString dir) fs = .ok fs') :
    Stored dir names (done ++ [call]) fs' := by
  intro name hname crc file bytes hfile hfound
  obtain ⟨stem, -, -, hall⟩ :=
    cacheFile_of_extension (.ofString dir) (hnames call.name hcall)
  rcases Call.run_eq_ok (hall call.crc) hrun with ⟨hopened, rfl⟩ | ⟨-, rfl⟩
  · rcases (write_eq_some_iff ..).mp hfound with ⟨heq, hbytes⟩ | ⟨-, hold⟩
    · refine ⟨call, by simp, ?_, hopened, hbytes⟩
      exact (crc_eq_of_file_eq (hnames name hname) (hnames call.name hcall) hfile
        (hall call.crc) heq).symm
    · obtain ⟨old, hmem, hold⟩ := hstored name hname crc file bytes hfile hold
      exact ⟨old, List.mem_append_left _ hmem, hold⟩
  · obtain ⟨old, hmem, hold⟩ := hstored name hname crc file bytes hfile hfound
    exact ⟨old, List.mem_append_left _ hmem, hold⟩

/-- A whole sequence of stores keeps the invariant. -/
theorem stored_run {dir : Text} {names : Set Text} (hnames : ∀ n ∈ names, dot ∈ filename n)
    {calls : List Call} {fs fs' : FileSystem} (hfresh : Fresh dir fs)
    (hcalls : ∀ call ∈ calls, call.name ∈ names)
    (hrun : runCalls (.ofString dir) calls fs = .ok fs') :
    Stored dir names calls fs' := by
  refine (trace_of_foldlM hrun).invariant_of_forall (fun call => call.name ∈ names)
    (Stored dir names) hcalls ?_ (stored_step hnames)
  -- at the start no file lies below the directory
  intro name hname crc file bytes hfile hfound
  obtain ⟨stem, suffix, hsplit, hall⟩ :=
    cacheFile_of_extension (.ofString dir) (hnames name hname)
  rw [hall crc] at hfile
  obtain rfl := Option.some.inj (Except.ok.inj hfile)
  rw [hfresh _ (cacheFile_liesUnder dir crc hsplit)] at hfound
  cases hfound

/-- With extensions everywhere no store throws. -/
theorem runCalls_ok {names : Set Text} (hnames : ∀ n ∈ names, dot ∈ filename n)
    (dir : CacheDirectory) {calls : List Call} (hcalls : ∀ call ∈ calls, call.name ∈ names)
    (fs : FileSystem) : ∃ fs', runCalls dir calls fs = .ok fs' := by
  refine foldlM_ok (fun call hcall s => ?_) fs
  obtain ⟨stem, -, -, hall⟩ := cacheFile_of_extension dir (hnames _ (hcalls call hcall))
  unfold Call.run notifyObjectCompiled
  rw [hall call.crc]
  cases call.opened with
  | true => exact ⟨_, rfl⟩
  | false => exact ⟨_, rfl⟩

/-- A lookup reads the computed file. -/
theorem getObject_eq {dir : CacheDirectory} {modID file : Text} (fs : FileSystem)
    (hfile : getCacheFilename dir modID = .ok (some file)) :
    getObject dir fs modID = .ok (fs (resolve file)) := by
  unfold getObject
  rw [hfile]
  rfl

/-- A hit is a file that can be loaded. -/
theorem hasObjectFor_eq (dir : CacheDirectory) (fs : FileSystem) (modID : Text) :
    hasObjectFor dir fs modID = (getObject dir fs modID).map Option.isSome := by
  unfold hasObjectFor getObject
  rcases getCacheFilename dir modID with e | _ | file <;> rfl

theorem sound_of_extension {names : Set Text} (dir : Text)
    (hnames : ∀ n ∈ names, dot ∈ filename n) : Sound dir names where
  noAbort := fun _ fs hcalls => runCalls_ok hnames (.ofString dir) hcalls fs
  noAbortGet := by
    intro name hname crc fs
    obtain ⟨stem, -, -, hall⟩ := cacheFile_of_extension (.ofString dir) (hnames name hname)
    exact ⟨_, getObject_eq fs (hall crc)⟩
  under := by
    intro name hname crc file hfile
    obtain ⟨stem, suffix, hsplit, hall⟩ :=
      cacheFile_of_extension (.ofString dir) (hnames name hname)
    rw [hall crc] at hfile
    obtain rfl := Option.some.inj (Except.ok.inj hfile)
    exact cacheFile_liesUnder dir crc hsplit
  found := by
    intro calls fs fs' hfresh hcalls hrun name hname crc bytes hget
    obtain ⟨stem, -, -, hall⟩ := cacheFile_of_extension (.ofString dir) (hnames name hname)
    rw [getObject_eq fs' (hall crc)] at hget
    exact stored_run hnames hfresh hcalls hrun name hname crc _ bytes (hall crc)
      (Except.ok.inj hget)
  distinct := fun _ hname _ hname' _ _ _ _ hfile hfile' heq =>
    crc_eq_of_file_eq (hnames _ hname) (hnames _ hname') hfile hfile' heq

/-! ## Names without an extension -/

/-- A name without an extension either aborts the lookup or shares one file
between all CRCs. -/
theorem shares_or_aborts {name : Text} (dir : CacheDirectory) (hname : dot ∉ filename name) :
    (∀ crc, getCacheFilename dir (generateName name crc) = .error .outOfRange) ∨
      ∃ file, ∀ crc, getCacheFilename dir (generateName name crc) = .ok (some file) := by
  have hpart : dot ∉ namePart name := by rwa [namePart_eq_filename]
  by_cases hdir : dot ∈ dir.path
  · obtain ⟨l, r, hsplit, hr⟩ := exists_split_of_mem hdir
    exact Or.inr ⟨_, fun crc => getCacheFilename_of_dotted_directory dir crc hpart hsplit hr⟩
  · exact Or.inl fun crc => getCacheFilename_of_no_dot dir crc hpart hdir

theorem extension_of_sound {dir : Text} {names : Set Text} (hsound : Sound dir names) :
    ∀ n ∈ names, dot ∈ filename n := by
  intro name hmem
  by_contra hname
  rcases shares_or_aborts (.ofString dir) hname with habort | ⟨file, hshare⟩
  · obtain ⟨found, hget⟩ := hsound.noAbortGet name hmem 0 fun _ => none
    unfold getObject at hget
    rw [habort 0] at hget
    cases hget
  · have hcrc : (0 : UInt32) = 1 :=
      hsound.distinct name hmem name hmem 0 1 file file (hshare 0) (hshare 1) rfl
    exact absurd hcrc (by decide)

/-- **The object cache is sound for a set of entry names exactly when each of
them has an extension in its file-name part.** -/
theorem sound_iff_extension (dir : Text) (names : Set Text) :
    Sound dir names ↔ ∀ n ∈ names, dot ∈ filename n :=
  ⟨extension_of_sound, sound_of_extension dir⟩

/-- An entry `foo` under the default directory: the object stored for CRC 1 is
found for CRC 2. -/
theorem extensionless_entry_is_unsound :
    (∃ fs, runCalls (.ofString (ascii "/home/u/.cache/allvm/objects"))
        [⟨ascii "foo", 1, [127, 69], true⟩] (fun _ => none) = .ok fs ∧
      getObject (.ofString (ascii "/home/u/.cache/allvm/objects")) fs
        (generateName (ascii "foo") 2) = .ok (some [127, 69])) ∧
    ¬ Sound (ascii "/home/u/.cache/allvm/objects") {ascii "foo"} := by
  refine ⟨⟨_, rfl, rfl⟩, fun hsound => ?_⟩
  exact absurd (extension_of_sound hsound _ rfl) (by decide)

end JITCache
end Cache
end AllvmTools
