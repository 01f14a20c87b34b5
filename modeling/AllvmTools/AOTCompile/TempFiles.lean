import AllvmTools.AOTCompile.AOTCompile

/-!
# The temporary files of a static compilation

`AOTCompileIfNeeded` again, with the directory of temporary files: the executable is
linked in a file of its own and removed at the end, the object beside it is removed
by a scope guard in `compileAndLinkAllexe`.

* `forget_tempDir` — without the directory, it is the function of the cache.
* `compileAndLinkAllexe_dir` — what compiling and linking leave in the directory.
* `sameFiles_iff` — the directory is as before just where `CleanSteps` says so.
* `executable_file_leaks` — the code generator fails.
-/

namespace AllvmTools
namespace AOTCompile
namespace TempFiles

open Library Library.Text Library.Paths Library.Files StaticCodeGen Cache
open Cache.StaticBinaryCache

variable {β ε : Type}

/-! ## The directory -/

/-- The files in the directory of temporary files, by name. -/
abbrev TempDir := Text → Option Bytes

/-- `".o"`. -/
def objectExt : Text :=
  ascii ".o"

/-- `FileRemoverPlus`, when its scope ends. -/
def TempDir.remove (dir : TempDir) (name : Text) : TempDir :=
  Function.update dir name none

/-- What the compiler or the linker makes of a file. -/
def TempDir.leave (dir : TempDir) (name : Text) (content : Option Bytes) : TempDir :=
  Function.update dir name content

/-- The same files are there. -/
def SameFiles (dir dir' : TempDir) : Prop :=
  ∀ name, (dir' name).isSome = (dir name).isSome

/-! ## The steps -/

/-- How the compilation of the object file ends. -/
inductive CompileStep (ε : Type) where
  /-- The output cannot be opened. -/
  | notOpened (e : ε)
  /-- Code generation or a write fails; `tool_output_file` deletes the output. -/
  | notGenerated (e : ε)
  /-- The output is kept but cannot be read back as an object. -/
  | notRead (e : ε) (object : Bytes)
  | compiled (object : Bytes)

/-- How the link ends, with what the linker leaves of its output where it fails. -/
inductive LinkStep (ε : Type) where
  | notLinked (e : ε) (left : Option Bytes)
  /-- The output cannot be read back as a binary. -/
  | notRead (e : ε) (left : Option Bytes)
  | linked (binary : Bytes)

/-- What the surroundings decide during one call.  `createTemporaryFile` makes a file
that was not there, or fails. -/
structure Steps (ε : Type) (dir : TempDir) where
  tempFile : Option { name : Text // dir name = none }
  compile : CompileStep ε
  link : LinkStep ε
  publication : Publication

/-- `compileAllexe` with its output file. -/
def compileAllexe (step : CompileStep ε) (filename : Text) (dir : TempDir) :
    Except ε Bytes × TempDir :=
  match step with
  | .notOpened e => (.error e, dir)
  | .notGenerated e => (.error e, dir.remove filename)
  | .notRead e object => (.error e, dir.leave filename (some object))
  | .compiled object => (.ok object, dir.leave filename (some object))

/-- The link and the reading of its output. -/
def linkBinary (step : LinkStep ε) (filename : Text) (dir : TempDir) : Except ε Bytes × TempDir :=
  match step with
  | .notLinked e left => (.error e, dir.leave filename left)
  | .notRead e left => (.error e, dir.leave filename left)
  | .linked binary => (.ok binary, dir.leave filename (some binary))

/-- `compileAndLinkAllexe`: the object file is removed on every way out. -/
def compileAndLinkAllexe (compile : CompileStep ε) (link : LinkStep ε) (filename : Text)
    (dir : TempDir) : Except ε Bytes × TempDir :=
  let objectFilename := filename ++ objectExt
  match compileAllexe compile objectFilename dir with
  | (.error e, dir) => (.error e, dir.remove objectFilename)
  | (.ok _, dir) =>
      match linkBinary link filename dir with
      | (result, dir) => (result, dir.remove objectFilename)

/-- `AOTCompileIfNeeded`, with the files of the cache and the temporary files. -/
def AOTCompileIfNeeded {tempDir : TempDir} (dir : CacheDirectory) (steps : Steps ε tempDir)
    (allexe : Allexe β) (options : CompilationOptions) (fs : FileSystem) :
    Except StdException (AOTResult ε × FileSystem × TempDir) := do
  match allexe.entries with
  | [main] =>
      let cacheKey := generateName main.name main.crc (some options)
      match ← getObjectFileDesc dir fs cacheKey with
      | some _ => return (.success, fs, tempDir)
      | none =>
          match steps.tempFile with
          | none => return (.failure (.message noTemporaryFile), fs, tempDir)
          | some tempFile =>
              let tempDir := tempDir.leave tempFile.val (some [])
              match compileAndLinkAllexe steps.compile steps.link tempFile.val tempDir with
              | (.error e, tempDir) => return (.failure (.toolchain e), fs, tempDir)
              | (.ok binary, tempDir) =>
                  match ← notifyObjectCompiled dir fs cacheKey binary steps.publication with
                  | (.returned, fs) => return (.success, fs, tempDir.remove tempFile.val)
                  -- `exit` leaves what is there
                  | (.exited, fs) => return (.exited, fs, tempDir)
  | _ => return (.failure (.message moreThanOneModule), fs, tempDir)

/-! ## The cache does not see the directory -/

/-- The object, where it was compiled. -/
def CompileStep.result : CompileStep ε → Except ε Bytes
  | notOpened e => .error e
  | notGenerated e => .error e
  | notRead e _ => .error e
  | compiled object => .ok object

/-- The binary, where it was linked. -/
def LinkStep.result : LinkStep ε → Except ε Bytes
  | notLinked e _ => .error e
  | notRead e _ => .error e
  | linked binary => .ok binary

/-- A toolchain that takes these steps, whatever it is given. -/
def Steps.toolchain {tempDir : TempDir} (steps : Steps ε tempDir) : Toolchain β ε where
  compileModule _ _ := steps.compile.result
  link _ := steps.link.result

theorem compileAndLinkAllexe_result {tempDir : TempDir} (steps : Steps ε tempDir) (main : β)
    (filename : Text) (dir : TempDir) :
    (compileAndLinkAllexe steps.compile steps.link filename dir).1 =
      compileAndLinkAllexeWithLlcDefaults steps.toolchain main := by
  unfold compileAndLinkAllexe compileAllexe compileAndLinkAllexeWithLlcDefaults
    AOTCompile.compileAndLinkAllexe Steps.toolchain
  cases steps.compile with
  | notOpened e => rfl
  | notGenerated e => rfl
  | notRead e object => rfl
  | compiled object =>
      cases steps.link with
      | notLinked e left => rfl
      | notRead e left => rfl
      | linked binary => rfl

/-- Without the directory, the call is that of the cache, for a toolchain that takes
the same steps. -/
theorem forget_tempDir {tempDir : TempDir} (dir : CacheDirectory) (steps : Steps ε tempDir)
    (allexe : Allexe β) (options : CompilationOptions) (fs : FileSystem) :
    (AOTCompileIfNeeded dir steps allexe options fs).map (fun r => (r.1, r.2.1)) =
      AOTCompile.AOTCompileIfNeeded steps.toolchain dir
        ⟨steps.tempFile.isSome, steps.publication⟩ allexe options fs := by
  unfold AOTCompileIfNeeded AOTCompile.AOTCompileIfNeeded
  rcases allexe.entries with _ | ⟨main, _ | ⟨second, rest⟩⟩
  · rfl
  · dsimp only
    cases hlookup : getObjectFileDesc dir fs (generateName main.name main.crc (some options)) with
    | error e => rfl
    | ok found =>
        cases found with
        | some found => rfl
        | none =>
            cases htemp : steps.tempFile with
            | none => rfl
            | some tempFile =>
                have hresult := compileAndLinkAllexe_result steps main.contents tempFile.val
                  (tempDir.leave tempFile.val (some []))
                simp only [bind, Except.bind, Option.isSome_some, if_true]
                rw [← hresult]
                rcases compileAndLinkAllexe steps.compile steps.link tempFile.val
                  (tempDir.leave tempFile.val (some [])) with ⟨_ | binary, left⟩
                · rfl
                · dsimp only
                  rcases notifyObjectCompiled dir fs
                    (generateName main.name main.crc (some options)) binary
                    steps.publication with _ | ⟨_ | _, fs'⟩
                  · rfl
                  · rfl
                  · rfl
  · rfl

/-! ## What is left -/

/-- What the linker leaves of its output. -/
def LinkStep.left : LinkStep ε → Option Bytes
  | notLinked _ left => left
  | notRead _ left => left
  | linked binary => some binary

/-- What is left of the linker's output, if the linker was run. -/
def leftOutput (compile : CompileStep ε) (link : LinkStep ε) (before : Option Bytes) :
    Option Bytes :=
  match compile with
  | .compiled _ => link.left
  | _ => before

theorem objectFile_ne (name : Text) : name ++ objectExt ≠ name := by
  intro h
  have hlength := congrArg List.length h
  rw [List.length_append] at hlength
  have hext : objectExt.length = 2 := by decide
  omega

/-- The output of the linker stays, the object beside it is removed. -/
theorem compileAndLinkAllexe_dir (compile : CompileStep ε) (link : LinkStep ε) (filename : Text)
    (dir : TempDir) :
    (compileAndLinkAllexe compile link filename dir).2 =
      (dir.leave filename (leftOutput compile link (dir filename))).remove
        (filename ++ objectExt) := by
  have hne := objectFile_ne filename
  -- without a link the output is what it was
  have hself : dir.leave filename (dir filename) = dir := Function.update_eq_self filename dir
  unfold compileAndLinkAllexe compileAllexe leftOutput
  cases compile with
  | notOpened e => rw [hself]
  | notGenerated e =>
      rw [hself]
      exact Function.update_idem _ _ _
  | notRead e object =>
      rw [hself]
      exact Function.update_idem _ _ _
  | compiled object =>
      have hswap : ∀ content : Option Bytes,
          ((dir.leave (filename ++ objectExt) (some object)).leave filename content).remove
            (filename ++ objectExt) =
          (dir.leave filename content).remove (filename ++ objectExt) := by
        intro content
        unfold TempDir.leave TempDir.remove
        rw [Function.update_comm hne, Function.update_idem]
      cases link with
      | notLinked e left => exact hswap left
      | notRead e left => exact hswap left
      | linked binary => exact hswap (some binary)

section Files

variable {tempDir : TempDir} {name : Text}

/-- A file that was made and is left in the directory, beside a removed object. -/
theorem sameFiles_left_iff (hfree : tempDir name = none) (content : Option Bytes) :
    SameFiles tempDir ((tempDir.leave name content).remove (name ++ objectExt)) ↔
      tempDir (name ++ objectExt) = none ∧ content = none := by
  have hne := objectFile_ne name
  unfold SameFiles TempDir.leave TempDir.remove
  constructor
  · intro h
    have hobject := h (name ++ objectExt)
    have hname := h name
    rw [Function.update_self] at hobject
    rw [Function.update_of_ne hne.symm, Function.update_self, hfree] at hname
    exact ⟨Option.not_isSome_iff_eq_none.mp (by rw [← hobject]; simp),
      Option.not_isSome_iff_eq_none.mp (by rw [hname]; simp)⟩
  · rintro ⟨hobject, rfl⟩ other
    by_cases hother : other = name ++ objectExt
    · rw [hother, Function.update_self, hobject]
    · rw [Function.update_of_ne hother]
      by_cases hsame : other = name
      · rw [hsame, Function.update_self, hfree]
      · rw [Function.update_of_ne hsame]

theorem leave_leave (dir : TempDir) (name : Text) (content content' : Option Bytes) :
    (dir.leave name content).leave name content' = dir.leave name content' :=
  Function.update_idem _ _ _

/-- The executable is removed as well. -/
theorem remove_left (content : Option Bytes) :
    ((tempDir.leave name content).remove (name ++ objectExt)).remove name =
      (tempDir.leave name none).remove (name ++ objectExt) := by
  unfold TempDir.leave TempDir.remove
  rw [Function.update_comm (objectFile_ne name), Function.update_idem]

end Files

/-! ## The property -/

/-- Nothing stands where the object goes, and everything succeeds from the compilation
to the copy; or the link fails and the linker itself removes its output. -/
def Steps.Clean {tempDir : TempDir} (steps : Steps ε tempDir) (name : Text) : Prop :=
  tempDir (name ++ objectExt) = none ∧
    match steps.compile, steps.link with
    | .compiled _, .linked _ => steps.publication = .published
    | .compiled _, .notLinked _ left => left = none
    | .compiled _, .notRead _ left => left = none
    | _, _ => False

/-- Where a binary comes out it is published, and otherwise the linker left nothing. -/
theorem clean_iff {tempDir : TempDir} (steps : Steps ε tempDir) (name : Text) (dir : TempDir) :
    steps.Clean name ↔ tempDir (name ++ objectExt) = none ∧
      match (compileAndLinkAllexe steps.compile steps.link name dir).1 with
      | .ok _ => steps.publication = .published
      | .error _ => leftOutput steps.compile steps.link (some []) = none := by
  unfold Steps.Clean compileAndLinkAllexe compileAllexe leftOutput
  cases steps.compile with
  | notOpened e => simp
  | notGenerated e => simp
  | notRead e object => simp
  | compiled object =>
      cases steps.link with
      | notLinked e left => exact Iff.rfl
      | notRead e left => exact Iff.rfl
      | linked binary => exact Iff.rfl

/-- A binary that comes out is what the linker left. -/
theorem leftOutput_of_ok {compile : CompileStep ε} {link : LinkStep ε} {filename : Text}
    {dir : TempDir} {binary : Bytes}
    (h : (compileAndLinkAllexe compile link filename dir).1 = .ok binary) (before : Option Bytes) :
    leftOutput compile link before = some binary := by
  unfold compileAndLinkAllexe compileAllexe at h
  cases compile with
  | notOpened e => cases h
  | notGenerated e => cases h
  | notRead e object => cases h
  | compiled object =>
      cases link with
      | notLinked e left => cases h
      | notRead e left => cases h
      | linked binary' => exact congrArg some (Except.ok.inj h)

/-- What a miss leaves, once the temporary file is there. -/
theorem sameFiles_of_miss {tempDir : TempDir} (dir : CacheDirectory) (steps : Steps ε tempDir)
    (crc : UInt32) (options : CompilationOptions) (fs : FileSystem)
    (tempFile : { name : Text // tempDir name = none }) :
    (∃ result fs' tempDir',
      (match compileAndLinkAllexe steps.compile steps.link tempFile.val
          (tempDir.leave tempFile.val (some [])) with
        | (.error e, tempDir) => .ok (AOTResult.failure (.toolchain e), fs, tempDir)
        | (.ok binary, tempDir) =>
            (notifyObjectCompiled dir fs (generateName allexeMain crc (some options)) binary
                steps.publication).bind fun stored =>
              match stored with
              | (.returned, fs) => .ok (.success, fs, tempDir.remove tempFile.val)
              | (.exited, fs) => .ok (.exited, fs, tempDir)) =
        (.ok (result, fs', tempDir') : Except StdException (AOTResult ε × FileSystem × TempDir)) ∧
      SameFiles tempDir tempDir') ↔ steps.Clean tempFile.val := by
  have hdir := compileAndLinkAllexe_dir steps.compile steps.link tempFile.val
    (tempDir.leave tempFile.val (some []))
  rw [leave_leave, show tempDir.leave tempFile.val (some []) tempFile.val = some [] from
    Function.update_self ..] at hdir
  have hkept := fun content => sameFiles_left_iff tempFile.property content
  rw [clean_iff steps tempFile.val (tempDir.leave tempFile.val (some []))]
  rcases hrun : compileAndLinkAllexe steps.compile steps.link tempFile.val
    (tempDir.leave tempFile.val (some [])) with ⟨e | binary, left⟩
  · -- an error leaves what the linker left, or the file that was made
    rw [hrun] at hdir
    obtain rfl : left = _ := hdir
    rw [← hkept]
    constructor
    · rintro ⟨_, _, _, hresult, hsame⟩
      cases hresult
      exact hsame
    · exact fun hsame => ⟨_, _, _, rfl, hsame⟩
  · rw [hrun] at hdir
    obtain rfl : left = _ := hdir
    have hbinary : leftOutput steps.compile steps.link (some []) ≠ none := by
      rw [leftOutput_of_ok (congrArg Prod.fst hrun)]
      exact Option.some_ne_none _
    obtain ⟨⟨control, fs'⟩, hstore⟩ :=
      notifyObjectCompiled_ok dir fs crc (some options) binary steps.publication
    dsimp only
    rw [hstore]
    rcases notifyObjectCompiled_main hstore with ⟨rfl, hpublished, -⟩ | ⟨rfl, hpublished, -⟩
    · -- published, and removed then
      have hremoved := hkept none
      rw [← remove_left (leftOutput steps.compile steps.link (some []))] at hremoved
      rw [hpublished]
      constructor
      · rintro ⟨_, _, _, hresult, hsame⟩
        cases hresult
        exact ⟨(hremoved.mp hsame).1, rfl⟩
      · rintro ⟨hobject, -⟩
        exact ⟨_, _, _, rfl, hremoved.mpr ⟨hobject, rfl⟩⟩
    · refine iff_of_false ?_ fun h => hpublished h.2
      rintro ⟨_, _, _, hresult, hsame⟩
      cases hresult
      exact hbinary ((hkept _).mp hsame).2

/-- **Temporary files**: a call leaves the directory with the files it had, whether it
returns or exits, just where the steps it takes are clean ones. -/
theorem sameFiles_iff {tempDir : TempDir} (dir : CacheDirectory) (steps : Steps ε tempDir)
    (allexe : Allexe β) (options : CompilationOptions) (fs : FileSystem) :
    (∃ result fs' tempDir', AOTCompileIfNeeded dir steps allexe options fs =
        .ok (result, fs', tempDir') ∧ SameFiles tempDir tempDir') ↔
      ∀ main, allexe.entries = [main] →
        fs (resolve (cacheFile dir (keyCRC main.crc (some options)))) = none →
          ∀ tempFile, steps.tempFile = some tempFile → steps.Clean tempFile.val := by
  by_cases hsingle : allexe.getNumModules = 1
  · obtain ⟨main, hentries, hname⟩ := Allexe.exists_single hsingle
    unfold AOTCompileIfNeeded
    rw [hentries]
    simp only [hname, getObjectFileDesc_main, bind, Except.bind, List.cons.injEq, and_true,
      forall_eq']
    cases hfound : fs (resolve (cacheFile dir (keyCRC main.crc (some options)))) with
    | some found =>
        exact iff_of_true ⟨_, _, _, rfl, fun _ => rfl⟩ fun h => by cases h
    | none =>
        cases htemp : steps.tempFile with
        | none =>
            exact iff_of_true ⟨_, _, _, rfl, fun _ => rfl⟩ fun _ _ h => by cases h
        | some tempFile =>
            refine Iff.trans ?_ ((sameFiles_of_miss dir steps main.crc options fs tempFile).trans ?_)
            · exact Iff.rfl
            · simp
  · -- several modules, or none
    have hmany : ∀ main, allexe.entries ≠ [main] := by
      intro main hmain
      apply hsingle
      unfold Allexe.getNumModules
      rw [hmain]
      rfl
    refine iff_of_true ?_ fun main hmain => absurd hmain (hmany main)
    unfold AOTCompileIfNeeded
    split
    · next main hmain => exact absurd hmain (hmany main)
    · exact ⟨_, _, _, rfl, fun _ => rfl⟩

/-- A main module, of which nothing is cached. -/
def mainAllexe : Allexe Bytes where
  entries := [⟨allexeMain, 7, [66]⟩]
  mainFirst := by
    rintro _ ⟨⟩
    rfl

/-- The code generator fails, in an empty directory. -/
def failingSteps : Steps Unit fun _ => none where
  tempFile := some ⟨ascii "allvm-0.aot", rfl⟩
  compile := .notGenerated ()
  link := .linked []
  publication := .published

/-- The error is returned, and the file for the executable stays in the directory. -/
theorem executable_file_leaks :
    ∃ tempDir', AOTCompileIfNeeded (.ofString (ascii "/cache")) failingSteps mainAllexe
        .llcDefaults (fun _ => none) =
        .ok (.failure (.toolchain ()), fun _ => none, tempDir') ∧
      tempDir' (ascii "allvm-0.aot") = some [] ∧ ¬ SameFiles (fun _ => none) tempDir' := by
  have hleft : (compileAndLinkAllexe failingSteps.compile failingSteps.link (ascii "allvm-0.aot")
      (TempDir.leave (fun _ => none) (ascii "allvm-0.aot") (some []))).2 (ascii "allvm-0.aot") =
        some [] := by
    rw [compileAndLinkAllexe_dir]
    unfold TempDir.leave TempDir.remove
    rw [Function.update_of_ne (objectFile_ne _).symm, Function.update_self, Function.update_self]
    rfl
  refine ⟨_, ?_, hleft, ?_⟩
  · unfold AOTCompileIfNeeded
    simp only [mainAllexe, getObjectFileDesc_main, bind, Except.bind]
    rfl
  · intro h
    have hname := h (ascii "allvm-0.aot")
    rw [hleft] at hname
    cases hname

end TempFiles
end AOTCompile
end AllvmTools
