import Mathlib.Data.Set.Basic
import AllvmTools.Cache.StaticBinaryCache
import AllvmTools.Library.Runs

/-!
# Ahead-of-time compilation through the static cache

`AOTCompileIfNeeded` asks the cache under the key of the requested options, and
on a miss compiles through `compileAndLinkAllexeWithLlcDefaults`, which takes no
options, before storing under the same key.  `tryStaticExec` looks the key up.

* `holdsDefaults_run` — every stored file is the default compilation of the
  program whose key it has.
* `coherent_iff_defaults_agree` — the cache is coherent for a set of requests
  exactly when the requested options compile each program to what the defaults
  compile it to.
-/

namespace AllvmTools
namespace AOTCompile

open Library Library.Text Library.Paths Library.Files Library.Runs StaticCodeGen Cache
open Cache.StaticBinaryCache

variable {β ε : Type}

/-- The code generator and the linker, with LibNone, CrtBits and Linker fixed. -/
structure Toolchain (β ε : Type) where
  compileModule : β → CompilationOptions → Except ε Bytes
  link : Bytes → Except ε Bytes

/-- `compileAndLinkAllexe` for the only module of an allexe. -/
def compileAndLinkAllexe (tools : Toolchain β ε) (main : β) (options : CompilationOptions) :
    Except ε Bytes := do
  let object ← tools.compileModule main options
  tools.link object

/-- `compileAndLinkAllexeWithLlcDefaults`. -/
def compileAndLinkAllexeWithLlcDefaults (tools : Toolchain β ε) (main : β) : Except ε Bytes :=
  compileAndLinkAllexe tools main .llcDefaults

inductive AOTError (ε : Type) where
  | message (text : Text)
  | toolchain (e : ε)

/-- How a call ends. -/
inductive AOTResult (ε : Type) where
  | success
  | failure (error : AOTError ε)
  | exited

/-- What the surroundings decide during one call. -/
structure Environment where
  tempCreated : Bool
  publication : Publication

def moreThanOneModule : Text := ascii "cannot execute allexe with more than one module"
def noTemporaryFile : Text := ascii "Unable to create temporary file"

/-- `AOTCompileIfNeeded`. -/
def AOTCompileIfNeeded (tools : Toolchain β ε) (dir : CacheDirectory) (env : Environment)
    (allexe : Allexe β) (options : CompilationOptions) (fs : FileSystem) :
    Except StdException (AOTResult ε × FileSystem) := do
  match allexe.entries with
  | [main] =>
      let cacheKey := generateName main.name main.crc (some options)
      match ← getObjectFileDesc dir fs cacheKey with
      | some _ => return (.success, fs)
      | none =>
          if env.tempCreated then
            match compileAndLinkAllexeWithLlcDefaults tools main.contents with
            | .error e => return (.failure (.toolchain e), fs)
            | .ok binary =>
                match ← notifyObjectCompiled dir fs cacheKey binary env.publication with
                | (.returned, fs') => return (.success, fs')
                | (.exited, fs') => return (.exited, fs')
          else
            return (.failure (.message noTemporaryFile), fs)
  | _ => return (.failure (.message moreThanOneModule), fs)

/-- `ExecutionYengine::tryStaticExec` up to `fexecve`: the file it executes, or
none when it returns without executing. -/
def tryStaticExec (dir : CacheDirectory) (fs : FileSystem) (allexe : Allexe β)
    (options : CompilationOptions) : Except StdException (Except Text (Option Bytes)) := do
  match allexe.entries with
  | [main] =>
      let found ← getObjectFileDesc dir fs (generateName main.name main.crc (some options))
      return .ok found
  | _ => return .error moreThanOneModule

/-! ## Requests and their keys -/

/-- A single-module allexe together with options. -/
structure Request (β : Type) where
  allexe : Allexe β
  options : CompilationOptions
  single : allexe.getNumModules = 1

namespace Request

/-- The only module. -/
def main (request : Request β) : Entry β :=
  request.allexe.entries.get ⟨0, by
    have hsingle := request.single
    unfold Allexe.getNumModules at hsingle
    omega⟩

theorem entries_eq (request : Request β) :
    request.allexe.entries = [request.main] ∧ request.main.name = allexeMain := by
  obtain ⟨only, hentries, hname⟩ := Allexe.exists_single request.single
  have hmain : request.main = only := by
    unfold main
    simp [hentries]
  exact ⟨by rw [hmain, hentries], by rw [hmain, hname]⟩

/-- The CRC in the request's key. -/
def key (request : Request β) : UInt32 :=
  keyCRC request.main.crc (some request.options)

/-- What the requested options compile the program to. -/
def binary (tools : Toolchain β ε) (request : Request β) : Except ε Bytes :=
  compileAndLinkAllexe tools request.main.contents request.options

/-- What the defaults compile the program to. -/
def defaultBinary (tools : Toolchain β ε) (request : Request β) : Except ε Bytes :=
  compileAndLinkAllexeWithLlcDefaults tools request.main.contents

/-- The file of the request's key. -/
def file (dir : CacheDirectory) (request : Request β) : FilePath :=
  resolve (cacheFile dir request.key)

/-- One call of `AOTCompileIfNeeded`. -/
def compileIfNeeded (tools : Toolchain β ε) (dir : CacheDirectory) (env : Environment)
    (request : Request β) (fs : FileSystem) :
    Except StdException (AOTResult ε × FileSystem) :=
  AOTCompileIfNeeded tools dir env request.allexe request.options fs

/-- One call of `tryStaticExec`. -/
def lookup (dir : CacheDirectory) (fs : FileSystem) (request : Request β) :
    Except StdException (Except Text (Option Bytes)) :=
  tryStaticExec dir fs request.allexe request.options

end Request

/-- The lookup of a request reads its file. -/
theorem lookup_eq (dir : CacheDirectory) (fs : FileSystem) (request : Request β) :
    request.lookup dir fs = .ok (.ok (fs (request.file dir))) := by
  obtain ⟨hentries, hname⟩ := request.entries_eq
  unfold Request.lookup tryStaticExec
  rw [hentries]
  simp only [hname, getObjectFileDesc_main]
  rfl

/-- **What a call does**: nothing on a hit or when it fails before the store; on
success after a miss the default compilation stands under the request's key. -/
theorem compileIfNeeded_cases {tools : Toolchain β ε} {dir : CacheDirectory}
    {env : Environment} {request : Request β} {fs fs' : FileSystem} {result : AOTResult ε}
    (h : request.compileIfNeeded tools dir env fs = .ok (result, fs')) :
    (result = .success ∧ fs' = fs ∧ ∃ found, fs (request.file dir) = some found) ∨
    (result = .success ∧ ∃ binary, request.defaultBinary tools = .ok binary ∧
      ∀ key, fs' (resolve (cacheFile dir key)) =
        if key = request.key then some binary else fs (resolve (cacheFile dir key))) ∨
    (result ≠ .success ∧
      ∀ key, fs' (resolve (cacheFile dir key)) = fs (resolve (cacheFile dir key))) := by
  obtain ⟨hentries, hname⟩ := request.entries_eq
  unfold Request.compileIfNeeded AOTCompileIfNeeded at h
  rw [hentries] at h
  simp only [hname, getObjectFileDesc_main] at h
  -- a hit returns at once; a miss compiles for the temporary file and stores that
  cases hfound : fs (request.file dir) with
  | some found =>
      have hhit := hfound
      simp only [Request.file, Request.key] at hhit
      simp only [hhit] at h
      obtain ⟨rfl, rfl⟩ := Prod.mk.inj (Except.ok.inj h)
      exact Or.inl ⟨rfl, rfl, found, rfl⟩
  | none =>
      right
      simp only [Request.file, Request.key] at hfound
      simp only [hfound] at h
      cases htemp : env.tempCreated with
      | false =>
          rw [htemp] at h
          obtain ⟨rfl, rfl⟩ := Prod.mk.inj (Except.ok.inj h)
          exact Or.inr ⟨by simp, fun _ => rfl⟩
      | true =>
          rw [htemp] at h
          cases hbinary : request.defaultBinary tools with
          | error e =>
              unfold Request.defaultBinary at hbinary
              simp only [hbinary] at h
              obtain ⟨rfl, rfl⟩ := Prod.mk.inj (Except.ok.inj h)
              exact Or.inr ⟨by simp, fun _ => rfl⟩
          | ok binary =>
              unfold Request.defaultBinary at hbinary
              simp only [hbinary] at h
              cases hstore : notifyObjectCompiled dir fs
                  (generateName allexeMain request.main.crc (some request.options)) binary
                  env.publication with
              | error e => simp [hstore, bind, Except.bind] at h
              | ok stored =>
                  obtain ⟨control, fs''⟩ := stored
                  rw [hstore] at h
                  -- the store is published, or the process ends there
                  rcases notifyObjectCompiled_main hstore with
                    ⟨rfl, -, hfiles⟩ | ⟨rfl, -, hfiles⟩
                  · obtain ⟨rfl, rfl⟩ := Prod.mk.inj (Except.ok.inj h)
                    exact Or.inl ⟨rfl, binary, rfl, hfiles⟩
                  · obtain ⟨rfl, rfl⟩ := Prod.mk.inj (Except.ok.inj h)
                    exact Or.inr ⟨by simp, hfiles⟩

/-- On a miss, when nothing fails, the default compilation is stored. -/
theorem compileIfNeeded_published {tools : Toolchain β ε} {dir : CacheDirectory}
    {request : Request β} {fs fs' : FileSystem} {result : AOTResult ε} {binary : Bytes}
    (h : request.compileIfNeeded tools dir ⟨true, .published⟩ fs = .ok (result, fs'))
    (hmiss : fs (request.file dir) = none) (hdefault : request.defaultBinary tools = .ok binary) :
    fs' (request.file dir) = some binary := by
  obtain ⟨hentries, hname⟩ := request.entries_eq
  unfold Request.compileIfNeeded AOTCompileIfNeeded at h
  unfold Request.defaultBinary at hdefault
  simp only [Request.file, Request.key] at hmiss ⊢
  simp only [hentries, hname, getObjectFileDesc_main, bind, Except.bind, hmiss, if_true,
    hdefault] at h
  obtain ⟨⟨control, fs''⟩, hstore⟩ := notifyObjectCompiled_ok dir fs request.main.crc
    (some request.options) binary .published
  rw [hstore] at h
  rcases notifyObjectCompiled_main hstore with ⟨rfl, -, hfiles⟩ | ⟨-, hpublished, -⟩
  · obtain ⟨-, rfl⟩ := Prod.mk.inj (Except.ok.inj h)
    rw [hfiles, if_pos rfl]
  · exact absurd rfl hpublished

/-- No call throws: a main module always has a computed file. -/
theorem compileIfNeeded_ok (tools : Toolchain β ε) (dir : CacheDirectory) (env : Environment)
    (request : Request β) (fs : FileSystem) :
    ∃ result, request.compileIfNeeded tools dir env fs = .ok result := by
  obtain ⟨hentries, hname⟩ := request.entries_eq
  unfold Request.compileIfNeeded AOTCompileIfNeeded
  rw [hentries]
  simp only [hname, getObjectFileDesc_main]
  rcases fs (resolve (cacheFile dir (keyCRC request.main.crc (some request.options)))) with _ | b
  · cases env.tempCreated with
    | false => exact ⟨_, rfl⟩
    | true =>
        cases compileAndLinkAllexeWithLlcDefaults tools request.main.contents with
        | error e => exact ⟨_, rfl⟩
        | ok binary =>
            obtain ⟨control, hstore⟩ := notifyObjectCompiled_ok dir fs request.main.crc
              (some request.options) binary env.publication
            simp only [bind, Except.bind, hstore]
            rcases control with ⟨_ | _, fs'⟩ <;> exact ⟨_, rfl⟩
  · exact ⟨_, rfl⟩

/-! ## Sequences of calls -/

/-- One call and its surroundings. -/
structure Call (β : Type) where
  request : Request β
  env : Environment

/-- The file system one call leaves. -/
def Call.run (tools : Toolchain β ε) (dir : CacheDirectory) (fs : FileSystem) (call : Call β) :
    Except StdException FileSystem :=
  (call.request.compileIfNeeded tools dir call.env fs).map Prod.snd

/-- A sequence of calls on one cache; an exited process is followed by others. -/
def runCalls (tools : Toolchain β ε) (dir : CacheDirectory) (calls : List (Call β))
    (fs : FileSystem) : Except StdException FileSystem :=
  calls.foldlM (Call.run tools dir) fs

/-- Different programs or options have different keys. -/
def NoCollision (requests : Set (Request β)) : Prop :=
  ∀ r ∈ requests, ∀ r' ∈ requests, r.key = r'.key →
    r.main.contents = r'.main.contents ∧ r.options = r'.options

/-- The coherence of the cache in `dir` for a set of requests. -/
structure Coherent (tools : Toolchain β ε) (dir : Text) (requests : Set (Request β)) : Prop where
  /-- What a lookup finds is the program compiled with the requested options. -/
  found : ∀ (calls : List (Call β)) (fs fs' : FileSystem), Fresh dir fs →
    (∀ call ∈ calls, call.request ∈ requests) →
    runCalls tools (.ofString dir) calls fs = .ok fs' →
    ∀ r ∈ requests, ∀ binary, r.lookup (.ofString dir) fs' = .ok (.ok (some binary)) →
      r.binary tools = .ok binary
  /-- A successful call leaves something to be found. -/
  present : ∀ r ∈ requests, ∀ (env : Environment) (fs fs' : FileSystem),
    r.compileIfNeeded tools (.ofString dir) env fs = .ok (.success, fs') →
      ∃ binary, r.lookup (.ofString dir) fs' = .ok (.ok (some binary))

/-- **The invariant of a sequence of calls**: every cache file is the default
compilation of a request with that key. -/
def HoldsDefaults (tools : Toolchain β ε) (dir : CacheDirectory) (requests : Set (Request β))
    (fs : FileSystem) : Prop :=
  ∀ key binary, fs (resolve (cacheFile dir key)) = some binary →
    ∃ r ∈ requests, r.key = key ∧ r.defaultBinary tools = .ok binary

theorem holdsDefaults_step {tools : Toolchain β ε} {dir : CacheDirectory}
    {requests : Set (Request β)} {fs fs' : FileSystem} {call : Call β}
    (hcall : call.request ∈ requests) (hholds : HoldsDefaults tools dir requests fs)
    (hrun : call.run tools dir fs = .ok fs') : HoldsDefaults tools dir requests fs' := by
  unfold Call.run at hrun
  cases hresult : call.request.compileIfNeeded tools dir call.env fs with
  | error e =>
      rw [hresult] at hrun
      cases hrun
  | ok result =>
      obtain ⟨result, fs''⟩ := result
      rw [hresult] at hrun
      obtain rfl : fs'' = fs' := Except.ok.inj hrun
      intro key binary hfile
      rcases compileIfNeeded_cases hresult with
        ⟨-, rfl, -⟩ | ⟨-, stored, hstored, hfiles⟩ | ⟨-, hfiles⟩
      · exact hholds key binary hfile
      · rw [hfiles] at hfile
        split at hfile
        · next hkey =>
            obtain rfl := Option.some.inj hfile
            exact ⟨call.request, hcall, hkey.symm, hstored⟩
        · exact hholds key binary hfile
      · rw [hfiles] at hfile
        exact hholds key binary hfile

theorem holdsDefaults_run {tools : Toolchain β ε} {dir : Text} {requests : Set (Request β)}
    {calls : List (Call β)} {fs fs' : FileSystem} (hfresh : Fresh dir fs)
    (hcalls : ∀ call ∈ calls, call.request ∈ requests)
    (hrun : runCalls tools (.ofString dir) calls fs = .ok fs') :
    HoldsDefaults tools (.ofString dir) requests fs' := by
  refine (trace_of_foldlM hrun).invariant_of_forall (fun call => call.request ∈ requests)
    (fun _ => HoldsDefaults tools (.ofString dir) requests) hcalls ?_
    (fun _ _ _ _ hcall hholds hstep => holdsDefaults_step hcall hholds hstep)
  intro key binary hfile
  rw [hfresh _ (cacheFile_liesUnder dir key)] at hfile
  cases hfile

/-- After a successful call the request's file is there. -/
theorem present_of_success {tools : Toolchain β ε} {dir : CacheDirectory} {env : Environment}
    {request : Request β} {fs fs' : FileSystem}
    (h : request.compileIfNeeded tools dir env fs = .ok (.success, fs')) :
    ∃ binary, request.lookup dir fs' = .ok (.ok (some binary)) := by
  have hfile : ∃ binary, fs' (request.file dir) = some binary := by
    rcases compileIfNeeded_cases h with ⟨-, rfl, hfound⟩ | ⟨-, binary, -, hfiles⟩ | ⟨hfail, -⟩
    · exact hfound
    · exact ⟨binary, by rw [Request.file, hfiles, if_pos rfl]⟩
    · exact absurd rfl hfail
  obtain ⟨binary, hbinary⟩ := hfile
  exact ⟨binary, by rw [lookup_eq, hbinary]⟩

theorem coherent_of_defaults_agree {tools : Toolchain β ε} {requests : Set (Request β)}
    (dir : Text) (hkeys : NoCollision requests)
    (hagree : ∀ r ∈ requests, ∀ binary, r.defaultBinary tools = .ok binary →
      r.binary tools = .ok binary) :
    Coherent tools dir requests where
  found := by
    intro calls fs fs' hfresh hcalls hrun r hr binary hlookup
    rw [lookup_eq] at hlookup
    have hfile : fs' (r.file (.ofString dir)) = some binary :=
      Except.ok.inj (Except.ok.inj hlookup)
    obtain ⟨r', hr', hkey, hdefault⟩ :=
      holdsDefaults_run hfresh hcalls hrun r.key binary hfile
    -- the stored program is the requested one, since the keys do not collide
    obtain ⟨hcontents, -⟩ := hkeys r' hr' r hr hkey
    refine hagree r hr binary ?_
    rw [Request.defaultBinary, ← hcontents]
    exact hdefault
  present := fun _ _ _ _ _ h => present_of_success h

/-- One call in surroundings where nothing fails stores the default compilation. -/
theorem defaults_agree_of_coherent {tools : Toolchain β ε} {dir : Text}
    {requests : Set (Request β)} (hcoherent : Coherent tools dir requests) :
    ∀ r ∈ requests, ∀ binary, r.defaultBinary tools = .ok binary →
      r.binary tools = .ok binary := by
  intro r hr binary hdefault
  obtain ⟨⟨result, fs⟩, hcall⟩ :=
    compileIfNeeded_ok tools (.ofString dir) ⟨true, .published⟩ r fun _ => none
  have hfile := compileIfNeeded_published hcall rfl hdefault
  refine hcoherent.found [⟨r, true, .published⟩] (fun _ => none) fs (fun _ _ => rfl) ?_ ?_ r hr
    binary ?_
  · intro call hmem
    rw [List.mem_singleton.mp hmem]
    exact hr
  · simp only [runCalls, List.foldlM_cons, Call.run, hcall]
    rfl
  · rw [lookup_eq, hfile]

/-- **The static cache is coherent for a set of requests exactly when the
requested options compile each program to what the defaults compile it to.** -/
theorem coherent_iff_defaults_agree (tools : Toolchain β ε) (dir : Text)
    (requests : Set (Request β)) (hkeys : NoCollision requests) :
    Coherent tools dir requests ↔
      ∀ r ∈ requests, ∀ binary, r.defaultBinary tools = .ok binary →
        r.binary tools = .ok binary :=
  ⟨defaults_agree_of_coherent, coherent_of_defaults_agree dir hkeys⟩

/-! ### Two requests for one program -/

/-- A code generator whose output shows the optimization level. -/
def levelTools : Toolchain Bytes Text where
  compileModule main options := .ok (main ++ [options.oLvl.toInt.toNat.toUInt8])
  link := .ok

/-- A program of one module, requested with the given options. -/
def requestWith (options : CompilationOptions) : Request Bytes where
  allexe := ⟨[⟨allexeMain, 7, [66]⟩], by simp⟩
  options := options
  single := rfl

/-- The defaults without the verifier. -/
def unverified : CompilationOptions :=
  { CompilationOptions.llcDefaults with noVerify := true }

/-- The defaults at the optimization level `None`. -/
def unoptimized : CompilationOptions :=
  { CompilationOptions.llcDefaults with oLvl := .none }

def homeCache : Text := ascii "/home/u/.cache/allvm/static_binaries"

theorem noCollision_pair {r r' : Request β} (h : r.key ≠ r'.key) : NoCollision {r, r'} := by
  intro r₁ h₁ r₂ h₂ hkey
  rcases h₁ with rfl | rfl <;> rcases h₂ with rfl | rfl
  · exact ⟨rfl, rfl⟩
  · exact absurd hkey h
  · exact absurd hkey.symm h
  · exact ⟨rfl, rfl⟩

/-- Requests with and without the verifier have different keys, and are served
coherently by a code generator that compiles alike for both. -/
theorem coherent_iff_defaults_agree_noVerify :
    Coherent levelTools homeCache
      {requestWith .llcDefaults, requestWith unverified} := by
  refine (coherent_iff_defaults_agree levelTools _ _ (noCollision_pair ?_)).mpr ?_
  · decide +kernel
  · rintro r (rfl | rfl) binary hdefault
    · exact hdefault
    · exact hdefault

/-- A call in surroundings where nothing fails, in a sequence of calls. -/
theorem runCalls_cons_published {tools : Toolchain β ε} {dir : CacheDirectory}
    {r : Request β} {fs : FileSystem} {binary : Bytes} (hmiss : fs (r.file dir) = none)
    (hdefault : r.defaultBinary tools = .ok binary) (calls : List (Call β)) :
    ∃ fs', runCalls tools dir (⟨r, true, .published⟩ :: calls) fs = runCalls tools dir calls fs' ∧
      fs' (r.file dir) = some binary ∧
      ∀ key, key ≠ r.key → fs' (resolve (cacheFile dir key)) = fs (resolve (cacheFile dir key)) := by
  obtain ⟨⟨result, fs'⟩, hcall⟩ := compileIfNeeded_ok tools dir ⟨true, .published⟩ r fs
  refine ⟨fs', ?_, compileIfNeeded_published hcall hmiss hdefault, ?_⟩
  · simp only [runCalls, List.foldlM_cons, Call.run, hcall]
    rfl
  · intro key hkey
    rcases compileIfNeeded_cases hcall with ⟨-, rfl, -⟩ | ⟨-, _, -, hfiles⟩ | ⟨-, hfiles⟩
    · rfl
    · rw [hfiles, if_neg hkey]
    · exact hfiles key

/-- A program requested at level `Default` and at level `None` is found compiled at
level `Default` for both. -/
theorem other_level_is_incoherent :
    NoCollision {requestWith .llcDefaults, requestWith unoptimized} ∧
    (requestWith unoptimized).binary levelTools = .ok [66, 0] ∧
    ∃ fs, runCalls levelTools (.ofString homeCache)
        [⟨requestWith .llcDefaults, true, .published⟩,
          ⟨requestWith unoptimized, true, .published⟩]
        (fun _ => none) = .ok fs ∧
      (requestWith unoptimized).lookup (.ofString homeCache) fs =
        .ok (.ok (some [66, 2])) := by
  have hkeys : (requestWith .llcDefaults).key ≠
      (requestWith unoptimized).key := by
    decide +kernel
  refine ⟨noCollision_pair hkeys, rfl, ?_⟩
  obtain ⟨fs₁, hfirst, -, hothers⟩ := @runCalls_cons_published _ _ levelTools
    (.ofString homeCache) (requestWith .llcDefaults) (fun _ => none) [66, 2] rfl rfl
    [⟨requestWith unoptimized, true, .published⟩]
  obtain ⟨fs₂, hsecond, hfile, -⟩ := @runCalls_cons_published _ _ levelTools _
    (requestWith unoptimized) fs₁ [66, 2] (hothers _ hkeys.symm) rfl []
  exact ⟨fs₂, hfirst.trans hsecond, by rw [lookup_eq, hfile]⟩

end AOTCompile
end AllvmTools
