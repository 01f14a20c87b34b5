import AllvmTools.Allexe.Allexe
import AllvmTools.Cache.CacheNames
import AllvmTools.Library.Crc32
import AllvmTools.Library.FileSystem
import AllvmTools.StaticCodeGen.CompilationOptions

/-!
# The static binary cache

Keys, file names, the store and the lookup of the cache of linked executables.
A store copies the binary to a temporary name beside the final one, makes it
executable and renames it.

* `cacheFilename_injective` — under fixed options, every module CRC has its own
  file in the directory.
-/

namespace AllvmTools
namespace Cache
namespace StaticBinaryCache

open Library Library.Text Library.Paths Library.Files Library.Crc32 StaticCodeGen

/-- The CRC a key is made of: the module's, continued over the serialized
options.  The length handed to `crc32` is cut to 32 bits. -/
def keyCRC (crc : UInt32) : Option CompilationOptions → UInt32
  | none => crc
  | some options =>
      let buffer := options.serializeCompilationOptions
      crc32 crc (buffer.take (buffer.length % 2 ^ 32))

/-- `StaticBinaryCache::generateName`. -/
def generateName (name : Text) (crc : UInt32) (options : Option CompilationOptions) : Text :=
  Cache.generateName name (keyCRC crc options)

/-- `UINT32_MAX`. -/
def uint32Max : Nat := 0xFFFFFFFF

/-- `StaticBinaryCache::generateName` with its assertion compiled in; `none` is the
abort. -/
def assertingGenerateName (name : Text) (crc : UInt32) (options : Option CompilationOptions) :
    Option Text :=
  if options.all fun o => decide (o.serializeCompilationOptions.length ≤ uint32Max) then
    some (generateName name crc options)
  else
    none

/-- `StaticBinaryCache::getCacheFilename`: nothing replaces the extension. -/
def getCacheFilename (dir : CacheDirectory) (modID : Text) :
    Except StdException (Option Text) :=
  Cache.getCacheFilename [] dir modID

def tmpExt : Text := ascii ".tmp"

/-- How far `notifyObjectCompiled` gets after the file name is known. -/
inductive Publication where
  /-- `copy_file` fails; the temporary file may hold a part of the copy. -/
  | copyFailed (left : Option Bytes)
  | chmodFailed
  | renameFailed
  | published
deriving DecidableEq, Repr

/-- Whether the process goes on after a call. -/
inductive Control where
  | returned
  | exited
deriving DecidableEq, Repr

/-- `StaticBinaryCache::notifyObjectCompiled`: every failure is `exit(1)`. -/
def notifyObjectCompiled (dir : CacheDirectory) (fs : FileSystem) (cacheKey : Text)
    (binary : Bytes) (publication : Publication) :
    Except StdException (Control × FileSystem) := do
  match ← getCacheFilename dir cacheKey with
  | none => return (.exited, fs)
  | some cacheName =>
      let cacheNameTmp := resolve (cacheName ++ tmpExt)
      match publication with
      | .copyFailed none => return (.exited, fs)
      | .copyFailed (some left) => return (.exited, fs.write cacheNameTmp left)
      | .chmodFailed => return (.exited, fs.write cacheNameTmp binary)
      | .renameFailed => return (.exited, fs.write cacheNameTmp binary)
      | .published =>
          return (.returned,
            ((fs.write cacheNameTmp binary).remove cacheNameTmp).write (resolve cacheName) binary)

/-- `StaticBinaryCache::getObjectFileDesc`: the file the descriptor is for. -/
def getObjectFileDesc (dir : CacheDirectory) (fs : FileSystem) (name : Text) :
    Except StdException (Option Bytes) := do
  match ← getCacheFilename dir name with
  | none => return none
  | some cacheName => return fs (resolve cacheName)

/-! ## The file of a main module -/

/-- What is left of the name `main.bc`. -/
def mainStem : Text := ascii "main"

/-- The file a key CRC belongs to. -/
def cacheFile (dir : CacheDirectory) (key : UInt32) : Text :=
  dir.path ++ (utohexstr key ++ dash :: mainStem)

/-- Main modules always have a computed file. -/
theorem getCacheFilename_main (dir : CacheDirectory) (crc : UInt32)
    (options : Option CompilationOptions) :
    getCacheFilename dir (generateName allexeMain crc options) =
      .ok (some (cacheFile dir (keyCRC crc options))) := by
  have hname : namePart allexeMain = mainStem ++ dot :: ascii "bc" := by decide
  have hfile : getCacheFilename dir (generateName allexeMain crc options) =
      .ok (some (dir.path ++ (utohexstr (keyCRC crc options) ++ dash :: (mainStem ++ [])))) :=
    getCacheFilename_of_extension dir (keyCRC crc options) hname (by decide)
  rw [List.append_nil] at hfile
  exact hfile

theorem slash_not_mem_mainStem : slash ∉ mainStem := by decide

/-- One file for each key CRC. -/
theorem cacheFile_inj (dir : CacheDirectory) {key key' : UInt32}
    (h : resolve (cacheFile dir key) = resolve (cacheFile dir key')) : key = key' :=
  (cacheEntry_inj dir slash_not_mem_mainStem slash_not_mem_mainStem h).1

/-- The temporary file of one key is never the final file of another. -/
theorem cacheFile_ne_tmp (dir : CacheDirectory) (key key' : UInt32) :
    resolve (cacheFile dir key) ≠ resolve (cacheFile dir key' ++ tmpExt) := by
  intro h
  have htmp : cacheFile dir key' ++ tmpExt =
      dir.path ++ (utohexstr key' ++ dash :: (mainStem ++ tmpExt)) := by
    simp [cacheFile]
  rw [htmp] at h
  exact absurd (cacheEntry_inj dir slash_not_mem_mainStem (by decide) h).2 (by decide)

/-- The cache files lie directly below the directory. -/
theorem cacheFile_liesUnder (dir : Text) (key : UInt32) :
    LiesUnder dir (cacheFile (.ofString dir) key) := by
  have hfile := resolve_cacheEntry (.ofString dir) key slash_not_mem_mainStem
  rw [resolve_ofString] at hfile
  refine ⟨by rw [cacheFile, hfile], _, List.cons_ne_nil _ _, by rw [cacheFile, hfile], ?_⟩
  intro hmem
  have hdash : dash ∈ parentRef := by
    rw [List.mem_singleton.mp hmem]
    simp
  exact absurd hdash (by decide)

/-- The cache files are entries of the directory. -/
theorem cacheFile_liesDirectlyIn (dir : Text) (key : UInt32) :
    LiesDirectlyIn dir (cacheFile (.ofString dir) key) := by
  have hfile := resolve_cacheEntry (.ofString dir) key slash_not_mem_mainStem
  rw [resolve_ofString] at hfile
  refine ⟨by rw [cacheFile, hfile], _, ?_, by rw [cacheFile, hfile]⟩
  intro hparent
  have hdash : dash ∈ parentRef := by
    rw [← hparent]
    simp
  exact absurd hdash (by decide)

/-- The options take nothing away from a module's CRC. -/
theorem keyCRC_injective (options : Option CompilationOptions) :
    Function.Injective fun crc => keyCRC crc options := by
  cases options with
  | none => exact fun _ _ h => h
  | some options => exact crc32_injective _

/-- **Under fixed options every module CRC has a file of its own**: the assertion
holds, nothing is thrown, and the file is an entry of the cache directory. -/
theorem cacheFilename_injective (dir : Text) (options : Option CompilationOptions)
    (hsize : ∀ o ∈ options, o.serializeCompilationOptions.length < 2 ^ 32) :
    ∃ file : UInt32 → Text,
      (∀ crc, ∃ modID, assertingGenerateName allexeMain crc options = some modID ∧
        getCacheFilename (.ofString dir) modID = .ok (some (file crc))) ∧
      (Function.Injective fun crc => resolve (file crc)) ∧
      ∀ crc, LiesDirectlyIn dir (file crc) := by
  refine ⟨fun crc => cacheFile (.ofString dir) (keyCRC crc options), ?_, ?_, ?_⟩
  · intro crc
    refine ⟨generateName allexeMain crc options, ?_, getCacheFilename_main _ _ _⟩
    unfold assertingGenerateName
    rw [if_pos]
    cases options with
    | none => rfl
    | some o =>
        have hlt := hsize o rfl
        rw [Option.all_some, decide_eq_true_eq]
        simp only [uint32Max]
        omega
  · intro crc crc' h
    exact keyCRC_injective options (cacheFile_inj _ h)
  · exact fun crc => cacheFile_liesDirectlyIn dir _

/-- Without options, and for the defaults of the constructor. -/
theorem cacheFilename_injective_llcDefaults :
    (∃ file : UInt32 → Text,
      (∀ crc, ∃ modID, assertingGenerateName allexeMain crc none = some modID ∧
        getCacheFilename (.ofString []) modID = .ok (some (file crc))) ∧
      (Function.Injective fun crc => resolve (file crc)) ∧
      ∀ crc, LiesDirectlyIn [] (file crc)) ∧
    ∃ file : UInt32 → Text,
      (∀ crc, ∃ modID,
        assertingGenerateName allexeMain crc (some .llcDefaults) = some modID ∧
          getCacheFilename (.ofString (ascii "/var/cache/allvm")) modID =
            .ok (some (file crc))) ∧
      (Function.Injective fun crc => resolve (file crc)) ∧
      ∀ crc, LiesDirectlyIn (ascii "/var/cache/allvm") (file crc) := by
  constructor
  · exact cacheFilename_injective [] none fun _ h => by cases h
  · apply cacheFilename_injective
    rintro _ ⟨⟩
    decide

/-- What a store does to the cache files. -/
theorem notifyObjectCompiled_main {dir : CacheDirectory} {fs fs' : FileSystem}
    {crc : UInt32} {options : Option CompilationOptions} {binary : Bytes}
    {publication : Publication} {control : Control}
    (h : notifyObjectCompiled dir fs (generateName allexeMain crc options) binary publication =
      .ok (control, fs')) :
    (control = .returned ∧ publication = .published ∧
      ∀ key, fs' (resolve (cacheFile dir key)) =
        if key = keyCRC crc options then some binary else fs (resolve (cacheFile dir key))) ∨
    (control = .exited ∧ publication ≠ .published ∧
      ∀ key, fs' (resolve (cacheFile dir key)) = fs (resolve (cacheFile dir key))) := by
  have htmp := cacheFile_ne_tmp dir
  unfold notifyObjectCompiled at h
  rw [getCacheFilename_main] at h
  -- a step that fails has touched the temporary file only
  cases publication with
  | copyFailed left =>
      right
      cases left with
      | none =>
          obtain ⟨rfl, rfl⟩ := Prod.mk.inj (Except.ok.inj h)
          exact ⟨rfl, by simp, fun _ => rfl⟩
      | some left =>
          obtain ⟨rfl, rfl⟩ := Prod.mk.inj (Except.ok.inj h)
          exact ⟨rfl, by simp, fun key => write_of_ne fs left (htmp key _)⟩
  | chmodFailed =>
      right
      obtain ⟨rfl, rfl⟩ := Prod.mk.inj (Except.ok.inj h)
      exact ⟨rfl, by simp, fun key => write_of_ne fs binary (htmp key _)⟩
  | renameFailed =>
      right
      obtain ⟨rfl, rfl⟩ := Prod.mk.inj (Except.ok.inj h)
      exact ⟨rfl, by simp, fun key => write_of_ne fs binary (htmp key _)⟩
  | published =>
      left
      obtain ⟨rfl, rfl⟩ := Prod.mk.inj (Except.ok.inj h)
      refine ⟨rfl, rfl, fun key => ?_⟩
      by_cases hkey : key = keyCRC crc options
      · rw [if_pos hkey, hkey, write_self]
      · have hne : resolve (cacheFile dir key) ≠ resolve (cacheFile dir (keyCRC crc options)) :=
          fun heq => hkey (cacheFile_inj dir heq)
        rw [if_neg hkey, write_of_ne _ _ hne, remove_of_ne _ (htmp key _),
          write_of_ne _ _ (htmp key _)]

/-- Storing a main module's binary never throws. -/
theorem notifyObjectCompiled_ok (dir : CacheDirectory) (fs : FileSystem) (crc : UInt32)
    (options : Option CompilationOptions) (binary : Bytes) (publication : Publication) :
    ∃ result, notifyObjectCompiled dir fs (generateName allexeMain crc options) binary
      publication = .ok result := by
  unfold notifyObjectCompiled
  rw [getCacheFilename_main]
  rcases publication with (_ | left) | _ | _ | _ <;> exact ⟨_, rfl⟩

/-- A lookup for a main module reads its file. -/
theorem getObjectFileDesc_main (dir : CacheDirectory) (fs : FileSystem) (crc : UInt32)
    (options : Option CompilationOptions) :
    getObjectFileDesc dir fs (generateName allexeMain crc options) =
      .ok (fs (resolve (cacheFile dir (keyCRC crc options)))) := by
  unfold getObjectFileDesc
  rw [getCacheFilename_main]
  rfl

end StaticBinaryCache
end Cache
end AllvmTools
