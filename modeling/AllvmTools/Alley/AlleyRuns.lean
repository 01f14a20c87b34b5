import AllvmTools.Alley.Alley
import AllvmTools.Library.Machines
import AllvmTools.Library.MemoFiles

/-!
# Runs of `alley` and `allready`

Any number of starts of both programs, one after the other, on the same two caches.

* `runs_own_modules` — whatever the caches hold by then, a program that is executed
  or started was compiled from the modules of its own allexe.
* `ready_executes` — an allexe that `allready` has reported as cached is executed
  from the static cache from then on.
-/

namespace AllvmTools
namespace Alley

open Library Library.Text Library.Paths Library.Files Library.Runs Library.Machines
open Library.MemoFiles Cache AOTCompile StaticCodeGen

variable {β ε : Type} {engine : Engine β ε}

/-! ## The files of the two caches -/

/-- The file of a part in the cache of objects. -/
def Part.objectFile (dir : CacheDirectory) (part : Part β) : FilePath :=
  match JITCache.getCacheFilename dir part.modID with
  | .ok (some file) => resolve file
  | _ => resolve []

/-- The name has an extension for the cache to replace. -/
def Part.Dotted (part : Part β) : Prop :=
  dot ∈ filename part.entry.name

theorem Part.Dotted.cacheFilename {part : Part β} (h : part.Dotted) (dir : CacheDirectory) :
    ∃ stem file, JITCache.getCacheFilename dir part.modID = .ok (some file) ∧
      resolve file = part.objectFile dir ∧
      file = JITCache.cacheFile dir part.entry.crc stem := by
  obtain ⟨stem, -, -, hfile⟩ := JITCache.cacheFile_of_extension dir h
  have hname := hfile part.entry.crc
  refine ⟨stem, _, hname, ?_, rfl⟩
  rw [Part.objectFile, Part.modID, hname]

/-- The file of an object has its extension. -/
theorem Part.Dotted.objectFile_parts {part : Part β} (h : part.Dotted) (dir : CacheDirectory) :
    ∃ front name, (part.objectFile dir).parts = front ++ [name ++ JITCache.objectExt] := by
  obtain ⟨stem, file, -, hresolve, rfl⟩ := h.cacheFilename dir
  obtain ⟨front, name, hsplit⟩ := splitSlash_append_end (show slash ∉ JITCache.objectExt by decide)
    (dir.path ++ (utohexstr part.entry.crc ++ dash :: stem))
  have hlength : JITCache.objectExt.length = 2 := rfl
  have hlast : name ++ JITCache.objectExt ≠ [] ∧ name ++ JITCache.objectExt ≠ [dot] := by
    constructor
    · intro hnil
      have hsame := congrArg List.length hnil
      simp [hlength] at hsame
    · intro hdot
      have hsame := congrArg List.length hdot
      simp [hlength] at hsame
  refine ⟨front.filter fun part => part ≠ [] ∧ part ≠ [dot], name, ?_⟩
  have hpath : JITCache.cacheFile dir part.entry.crc stem =
      dir.path ++ (utohexstr part.entry.crc ++ dash :: stem) ++ JITCache.objectExt := by
    simp [JITCache.cacheFile]
  rw [← hresolve, resolve, hpath, components, hsplit, List.filter_append,
    List.filter_cons_of_pos (by simpa only [decide_eq_true_eq] using hlast), List.filter_nil]

/-- The two files that a key has in the static cache. -/
def staticFiles (dir : CacheDirectory) (key : UInt32) : List FilePath :=
  [resolve (StaticBinaryCache.cacheFile dir key),
    resolve (StaticBinaryCache.cacheFile dir key ++ StaticBinaryCache.tmpExt)]

/-- No object is kept in a file of the static cache. -/
theorem Part.Dotted.objectFile_notMem {part : Part β} (h : part.Dotted)
    (dir dir' : CacheDirectory) (key : UInt32) : part.objectFile dir ∉ staticFiles dir' key := by
  obtain ⟨front, name, hparts⟩ := h.objectFile_parts dir
  have hlast (rest : Text) (hrest : slash ∉ rest)
      (hend : rest.getLast? ≠ JITCache.objectExt.getLast?) (hne : rest ≠ []) :
      part.objectFile dir ≠ resolve (dir'.path ++ (utohexstr key ++ dash :: rest)) := by
    intro hsame
    rw [resolve_cacheEntry dir' key hrest] at hsame
    rw [hsame] at hparts
    obtain ⟨-, hpart⟩ := List.append_inj' hparts rfl
    have hfinal := congrArg List.getLast? (List.singleton_inj.mp hpart)
    rw [show utohexstr key ++ dash :: rest = (utohexstr key ++ [dash]) ++ rest by simp,
      List.getLast?_append_of_ne_nil _ hne,
      List.getLast?_append_of_ne_nil _ (show JITCache.objectExt ≠ [] by decide)] at hfinal
    exact hend hfinal
  rw [staticFiles, List.mem_cons, List.mem_singleton, not_or]
  constructor
  · exact hlast StaticBinaryCache.mainStem (by decide) (by decide) (by decide)
  · have htmp : StaticBinaryCache.cacheFile dir' key ++ StaticBinaryCache.tmpExt =
        dir'.path ++ (utohexstr key ++ dash ::
          (StaticBinaryCache.mainStem ++ StaticBinaryCache.tmpExt)) := by
      simp [StaticBinaryCache.cacheFile]
    rw [htmp]
    exact hlast _ (by decide) (by decide) (by decide)

/-! ## The static cache -/

/-- The request that both programs make for an allexe of one module. -/
def request (allexe : Allexe β) (hsingle : allexe.getNumModules = 1) : Request β :=
  ⟨allexe, .llcDefaults, hsingle⟩

/-- A store in the static cache touches the two files of the key. -/
theorem notifyObjectCompiled_frame {dir : CacheDirectory} {fs fs' : FileSystem} {crc : UInt32}
    {options : Option CompilationOptions} {binary : Bytes}
    {publication : StaticBinaryCache.Publication} {control : StaticBinaryCache.Control}
    (h : StaticBinaryCache.notifyObjectCompiled dir fs
      (StaticBinaryCache.generateName allexeMain crc options) binary publication =
        .ok (control, fs')) {file : FilePath}
    (hfile : ∀ key, file ∉ staticFiles dir key) : fs' file = fs file := by
  have hne := hfile (StaticBinaryCache.keyCRC crc options)
  rw [staticFiles, List.mem_cons, List.mem_singleton, not_or] at hne
  unfold StaticBinaryCache.notifyObjectCompiled at h
  rw [StaticBinaryCache.getCacheFilename_main] at h
  cases publication with
  | copyFailed left =>
      cases left with
      | none =>
          obtain ⟨-, rfl⟩ := Prod.mk.inj (Except.ok.inj h)
          rfl
      | some left =>
          obtain ⟨-, rfl⟩ := Prod.mk.inj (Except.ok.inj h)
          exact write_of_ne fs left hne.2
  | chmodFailed =>
      obtain ⟨-, rfl⟩ := Prod.mk.inj (Except.ok.inj h)
      exact write_of_ne fs binary hne.2
  | renameFailed =>
      obtain ⟨-, rfl⟩ := Prod.mk.inj (Except.ok.inj h)
      exact write_of_ne fs binary hne.2
  | published =>
      obtain ⟨-, rfl⟩ := Prod.mk.inj (Except.ok.inj h)
      rw [write_of_ne _ _ hne.1, remove_of_ne _ hne.2, write_of_ne _ _ hne.2]

theorem compileIfNeeded_frame {dir : CacheDirectory} {env : Environment} {r : Request β}
    {fs fs' : FileSystem} {result : AOTResult ε}
    (h : r.compileIfNeeded engine.tools dir env fs = .ok (result, fs')) {file : FilePath}
    (hfile : ∀ key, file ∉ staticFiles dir key) : fs' file = fs file := by
  obtain ⟨hentries, hname⟩ := r.entries_eq
  unfold Request.compileIfNeeded AOTCompileIfNeeded at h
  rw [hentries] at h
  simp only [hname, StaticBinaryCache.getObjectFileDesc_main] at h
  obtain ⟨found, hfound, h⟩ := except_bind_eq_ok_iff.mp h
  obtain rfl := Except.ok.inj hfound
  cases hcached : fs (resolve (StaticBinaryCache.cacheFile dir
      (StaticBinaryCache.keyCRC r.main.crc (some r.options)))) with
  | some image =>
      rw [hcached] at h
      obtain ⟨-, rfl⟩ := Prod.mk.inj (Except.ok.inj h)
      rfl
  | none =>
      rw [hcached] at h
      cases htemp : env.tempCreated with
      | false =>
          rw [htemp] at h
          obtain ⟨-, rfl⟩ := Prod.mk.inj (Except.ok.inj h)
          rfl
      | true =>
          rw [htemp] at h
          cases hbinary : compileAndLinkAllexeWithLlcDefaults engine.tools r.main.contents with
          | error e =>
              rw [hbinary] at h
              obtain ⟨-, rfl⟩ := Prod.mk.inj (Except.ok.inj h)
              rfl
          | ok binary =>
              rw [hbinary] at h
              obtain ⟨⟨control, fs''⟩, hstore, h⟩ := except_bind_eq_ok_iff.mp h
              have hframe := notifyObjectCompiled_frame hstore hfile
              cases control with
              | returned =>
                  obtain ⟨-, rfl⟩ := Prod.mk.inj (Except.ok.inj h)
                  exact hframe
              | exited =>
                  obtain ⟨-, rfl⟩ := Prod.mk.inj (Except.ok.inj h)
                  exact hframe

/-- What `ensureCompiled` does, in terms of the request it is about. -/
theorem ensureCompiled_eq (dirs : CacheDirs) (env : Environment) (allexe : Allexe β)
    (fs : FileSystem) :
    (allexe.getNumModules ≠ 1 ∧ ensureCompiled engine dirs env allexe fs = (some (.exited 1), fs)) ∨
      ∃ (hsingle : allexe.getNumModules = 1) (result : AOTResult ε) (fs' : FileSystem),
        (request allexe hsingle).compileIfNeeded engine.tools dirs.staticBinaries env fs =
          .ok (result, fs') ∧
        ((result = .success ∧ ensureCompiled engine dirs env allexe fs = (none, fs')) ∨
          (result ≠ .success ∧
            ensureCompiled engine dirs env allexe fs = (some (.exited 1), fs'))) := by
  by_cases hsingle : allexe.getNumModules = 1
  · obtain ⟨⟨result, fs'⟩, hcall⟩ := compileIfNeeded_ok engine.tools dirs.staticBinaries env
      (request allexe hsingle) fs
    refine Or.inr ⟨hsingle, result, fs', hcall, ?_⟩
    have hcall' : AOTCompileIfNeeded engine.tools dirs.staticBinaries env allexe .llcDefaults fs =
      .ok (result, fs') := hcall
    unfold ensureCompiled
    rw [hcall']
    cases result with
    | success => exact Or.inl ⟨rfl, rfl⟩
    | failure e => exact Or.inr ⟨by simp, rfl⟩
    | exited => exact Or.inr ⟨by simp, rfl⟩
  · refine Or.inl ⟨hsingle, ?_⟩
    obtain ⟨entries, hmain⟩ := allexe
    rcases entries with _ | ⟨first, _ | ⟨second, rest⟩⟩
    · rfl
    · exact absurd rfl hsingle
    · rfl

/-! ## The cache of objects -/

/-- The result that is kept for a part: its object. -/
def Part.Emits (engine : Engine β ε) (part : Part β) (object : Bytes) : Prop :=
  object = engine.emitObject (part.prepared engine)

/-- A loaded part: it is changed as it has to be, where there is no object for it. -/
structure Loaded (engine : Engine β ε) (dir : CacheDirectory) (fs : FileSystem) (part : Part β)
    (module : JITModule β) : Prop where
  modID : module.modID = part.modID
  contents : fs (part.objectFile dir) = none → module.contents = part.prepared engine

/-- No file is lost. -/
def Grows (fs fs' : FileSystem) : Prop :=
  ∀ file, fs' file = none → fs file = none

theorem Loaded.grows {dir : CacheDirectory} {fs fs' : FileSystem} {part : Part β}
    {module : JITModule β} (h : Loaded engine dir fs part module) (hgrows : Grows fs fs') :
    Loaded engine dir fs' part module :=
  ⟨h.modID, fun hnone => h.contents (hgrows _ hnone)⟩

theorem getObject_part {part : Part β} (h : part.Dotted) (dir : CacheDirectory) (fs : FileSystem) :
    JITCache.getObject dir fs part.modID = .ok (fs (part.objectFile dir)) := by
  obtain ⟨-, file, hfile, hresolve, -⟩ := h.cacheFilename dir
  rw [JITCache.getObject_eq fs hfile, hresolve]

/-- Loading never throws, and a module that is loaded is as it has to be. -/
theorem loadModule_spec (engine : Engine β ε) (dir : CacheDirectory) (fs : FileSystem)
    (step : JITStep) {part : Part β} (h : part.Dotted) :
    ∃ loaded, loadModule engine dir fs step part = .ok loaded ∧
      ∀ module ∈ loaded, Loaded engine dir fs part module := by
  unfold loadModule
  rw [JITCache.hasObjectFor_eq, getObject_part h]
  cases step.parsed with
  | false => exact ⟨none, rfl, by simp⟩
  | true =>
      cases hfound : fs (part.objectFile dir) with
      | some object =>
          refine ⟨some ⟨part.modID, part.entry.contents⟩, rfl, ?_⟩
          intro module hmodule
          obtain rfl := Option.some.inj hmodule
          exact ⟨rfl, fun hnone => by rw [hfound] at hnone; cases hnone⟩
      | none =>
          cases step.materialized with
          | false => exact ⟨none, rfl, by simp⟩
          | true =>
              refine ⟨some ⟨part.modID, part.prepared engine⟩, rfl, ?_⟩
              intro module hmodule
              obtain rfl := Option.some.inj hmodule
              exact ⟨rfl, fun _ => rfl⟩

theorem loadModules_spec (engine : Engine β ε) (dir : CacheDirectory) (fs : FileSystem)
    (steps : Nat → JITStep) {parts : List (Part β)} (h : ∀ part ∈ parts, part.Dotted) :
    ∃ loaded, loadModules engine dir fs steps parts = .ok loaded ∧
      ∀ modules ∈ loaded, List.Forall₂ (Loaded engine dir fs) parts modules := by
  induction parts generalizing steps with
  | nil =>
      refine ⟨some [], rfl, ?_⟩
      intro modules hmodules
      obtain rfl := Option.some.inj hmodules
      exact .nil
  | cons part rest ih =>
      obtain ⟨first, hfirst, hloaded⟩ :=
        loadModule_spec engine dir fs (steps 0) (h part List.mem_cons_self)
      obtain ⟨others, hothers, hall⟩ :=
        ih (fun idx => steps (idx + 1)) fun p hp => h p (List.mem_cons_of_mem part hp)
      rw [loadModules, hfirst]
      cases first with
      | none => exact ⟨none, rfl, by simp⟩
      | some module =>
          cases others with
          | none =>
              refine ⟨none, ?_, by simp⟩
              simp only [bind, Except.bind, hothers]
              rfl
          | some modules =>
              refine ⟨some (module :: modules), ?_, ?_⟩
              · simp only [bind, Except.bind, hothers]
                rfl
              · intro _ hmodules
                obtain rfl := Option.some.inj hmodules
                exact .cons (hloaded module rfl) (hall modules rfl)

/-- What compiling and storing objects changes: files of the cache of objects only,
and none is lost. -/
structure Stores (dir : CacheDirectory) (parts : List (Part β)) (fs fs' : FileSystem) : Prop where
  grows : Grows fs fs'
  frame : ∀ file, (∀ part ∈ parts, file ≠ part.objectFile dir) → fs' file = fs file

theorem objectOf_spec {dir : CacheDirectory} {keys : Set (Part β)}
    (hdetermines : Determines keys (Part.objectFile dir) (Part.Emits engine)) {fs : FileSystem}
    (hsound : Sound keys (Part.objectFile dir) (Part.Emits engine) fs) (opened : Bool)
    {part : Part β} (hpart : part ∈ keys) (hdotted : part.Dotted) {module : JITModule β}
    (hloaded : Loaded engine dir fs part module) :
    ∃ fs', objectOf engine dir fs opened module =
        .ok (engine.emitObject (part.prepared engine), fs') ∧
      Sound keys (Part.objectFile dir) (Part.Emits engine) fs' ∧ Stores dir [part] fs fs' := by
  obtain ⟨-, file, hfile, hresolve, -⟩ := hdotted.cacheFilename dir
  unfold objectOf
  rw [hloaded.modID, getObject_part hdotted]
  cases hfound : fs (part.objectFile dir) with
  | some object =>
      obtain rfl : object = _ := hsound part hpart object hfound
      exact ⟨fs, rfl, hsound, fun _ h => h, fun _ _ => rfl⟩
  | none =>
      simp only [bind, Except.bind, hloaded.contents hfound]
      unfold JITCache.notifyObjectCompiled
      rw [hfile]
      cases opened with
      | false => exact ⟨fs, rfl, hsound, fun _ h => h, fun _ _ => rfl⟩
      | true =>
          refine ⟨fs.write (resolve file) (engine.emitObject (part.prepared engine)), rfl, ?_,
            fun other hnone => ?_, fun other hother => ?_⟩
          · rw [hresolve]
            exact hsound.store hdetermines hpart rfl
          · by_cases hsame : other = resolve file
            · rw [hsame, write_self] at hnone
              cases hnone
            · rwa [write_of_ne _ _ hsame] at hnone
          · exact write_of_ne _ _ (hresolve ▸ hother part (by simp))

theorem finalizeObject_spec {dir : CacheDirectory} {keys : Set (Part β)}
    (hdetermines : Determines keys (Part.objectFile dir) (Part.Emits engine))
    (steps : Nat → JITStep) {parts : List (Part β)} {modules : List (JITModule β)}
    {fs : FileSystem} (hsound : Sound keys (Part.objectFile dir) (Part.Emits engine) fs)
    (hparts : ∀ part ∈ parts, part ∈ keys ∧ part.Dotted)
    (hloaded : List.Forall₂ (Loaded engine dir fs) parts modules) :
    ∃ fs', finalizeObject engine dir steps modules fs =
        .ok (parts.map fun part => engine.emitObject (part.prepared engine), fs') ∧
      Sound keys (Part.objectFile dir) (Part.Emits engine) fs' ∧ Stores dir parts fs fs' := by
  induction parts generalizing steps modules fs with
  | nil =>
      cases hloaded
      exact ⟨fs, rfl, hsound, fun _ h => h, fun _ _ => rfl⟩
  | cons part rest ih =>
      obtain _ | ⟨hfirst, hrest⟩ := hloaded
      obtain ⟨hpart, hdotted⟩ := hparts part List.mem_cons_self
      obtain ⟨fs₁, hobject, hsound₁, hstores₁⟩ :=
        objectOf_spec hdetermines hsound (steps 0).opened hpart hdotted hfirst
      obtain ⟨fs₂, hobjects, hsound₂, hstores₂⟩ := ih (fun idx => steps (idx + 1)) hsound₁
        (fun p hp => hparts p (List.mem_cons_of_mem part hp))
        (hrest.imp fun _ _ h => h.grows hstores₁.grows)
      refine ⟨fs₂, ?_, hsound₂, fun file hnone => hstores₁.grows file (hstores₂.grows file hnone),
        fun file hfile => ?_⟩
      · simp only [finalizeObject, hobject, hobjects, bind, Except.bind]
        rfl
      · rw [hstores₂.frame file fun p hp => hfile p (List.mem_cons_of_mem part hp),
          hstores₁.frame file fun p hp => ?_]
        rw [List.mem_singleton.mp hp]
        exact hfile part List.mem_cons_self

/-- The objects a program is linked from. -/
def objectsOf (engine : Engine β ε) (allexe : Allexe β) : List Bytes :=
  (parts allexe).map fun part => engine.emitObject (part.prepared engine)

/-- **`doJITExec`**: it never throws, and what it links are the objects of the parts. -/
theorem doJITExec_spec {dir : CacheDirectory} {keys : Set (Part β)}
    (hdetermines : Determines keys (Part.objectFile dir) (Part.Emits engine))
    (env : JITEnvironment) {allexe : Allexe β} {fs : FileSystem}
    (hsound : Sound keys (Part.objectFile dir) (Part.Emits engine) fs)
    (hparts : ∀ part ∈ parts allexe, part ∈ keys ∧ part.Dotted) :
    ∃ linked fs', doJITExec engine dir env allexe fs = .ok (linked, fs') ∧
      (∀ objects ∈ linked, objects = objectsOf engine allexe) ∧
      Sound keys (Part.objectFile dir) (Part.Emits engine) fs' ∧
      Stores dir (parts allexe) fs fs' := by
  have hstays : Stores dir (parts allexe) fs fs := ⟨fun _ h => h, fun _ _ => rfl⟩
  unfold doJITExec objectsOf
  cases hall : parts allexe with
  | nil => exact ⟨none, fs, rfl, by simp, hsound, hall ▸ hstays⟩
  | cons main libraries =>
      rw [hall] at hparts hstays
      obtain ⟨first, hfirst, hmain⟩ := loadModule_spec engine dir fs (env.steps 0)
        (hparts main List.mem_cons_self).2
      obtain ⟨others, hothers, hlibraries⟩ := loadModules_spec engine dir fs
        (fun idx => env.steps (idx + 1))
        fun p hp => (hparts p (List.mem_cons_of_mem main hp)).2
      simp only [bind, Except.bind, hfirst]
      cases first with
      | none => exact ⟨none, fs, rfl, by simp, hsound, hstays⟩
      | some module =>
          cases env.engineBuilt with
          | false => exact ⟨none, fs, rfl, by simp, hsound, hstays⟩
          | true =>
              simp only [hothers, if_true]
              cases others with
              | none => exact ⟨none, fs, rfl, by simp, hsound, hstays⟩
              | some modules =>
                  cases env.fitsStack with
                  | false => exact ⟨none, fs, rfl, by simp, hsound, hstays⟩
                  | true =>
                      obtain ⟨fs', hlinked, hsound', hstores⟩ := finalizeObject_spec hdetermines
                        env.steps hsound hparts (.cons (hmain module rfl) (hlibraries modules rfl))
                      simp only [hlinked, if_true]
                      exact ⟨_, fs', rfl, fun _ h => (Option.some.inj h).symm, hsound', hstores⟩

/-! ## The invariant of both caches -/

/-- The requests for the programs. -/
def requests (programs : Set (Allexe β)) : Set (Request β) :=
  { r | r.allexe ∈ programs ∧ r.options = .llcDefaults }

/-- The modules of the programs. -/
def partsOf (programs : Set (Allexe β)) : Set (Part β) :=
  { part | ∃ allexe ∈ programs, part ∈ parts allexe }

/-- What the names of the cache files rely on: the names of modules have extensions,
and modules with the same CRC are prepared alike: they are the same, and change for
libc++abi or not. -/
structure Identified (engine : Engine β ε) (programs : Set (Allexe β)) : Prop where
  dotted : ∀ part ∈ partsOf programs, part.Dotted
  crc : ∀ part ∈ partsOf programs, ∀ part' ∈ partsOf programs,
    part.entry.crc = part'.entry.crc → part.prepared engine = part'.prepared engine

/-- The result that is kept for a request: the default compilation. -/
def Compiled (engine : Engine β ε) (r : Request β) (binary : Bytes) : Prop :=
  r.defaultBinary engine.tools = .ok binary

/-- Every file in a cache is the result for the programs that would find it there. -/
structure Caches (engine : Engine β ε) (dirs : CacheDirs) (programs : Set (Allexe β))
    (fs : FileSystem) : Prop where
  binaries : Sound (requests programs) (Request.file dirs.staticBinaries) (Compiled engine) fs
  objects : Sound (partsOf programs) (Part.objectFile dirs.objects) (Part.Emits engine) fs

variable {dirs : CacheDirs} {programs : Set (Allexe β)}

/-- The main module of a request is a part of its program. -/
theorem main_mem_partsOf {r : Request β} (hr : r ∈ requests programs) :
    (⟨false, r.main⟩ : Part β) ∈ partsOf programs := by
  refine ⟨r.allexe, hr.1, ?_⟩
  rw [parts, r.entries_eq.1]
  exact List.mem_cons_self

theorem Identified.determines_binaries (h : Identified engine programs) (dir : CacheDirectory) :
    Determines (requests programs) (Request.file dir) (Compiled engine) := by
  intro r hr r' hr' hfile binary hbinary
  have hkey : r.key = r'.key := StaticBinaryCache.cacheFile_inj dir hfile
  rw [Request.key, Request.key, hr.2, hr'.2] at hkey
  have hsame := h.crc _ (main_mem_partsOf hr) _ (main_mem_partsOf hr')
    (StaticBinaryCache.keyCRC_injective _ hkey)
  have hcontents : r.main.contents = r'.main.contents := hsame
  rw [Compiled, Request.defaultBinary, ← hcontents]
  exact hbinary

theorem Identified.determines_objects (h : Identified engine programs) (dir : CacheDirectory) :
    Determines (partsOf programs) (Part.objectFile dir) (Part.Emits engine) := by
  intro part hpart part' hpart' hfile object hobject
  obtain ⟨stem, file, -, hresolve, rfl⟩ := (h.dotted part hpart).cacheFilename dir
  obtain ⟨stem', file', -, hresolve', rfl⟩ := (h.dotted part' hpart').cacheFilename dir
  have hcrc := crc_eq_of_resolve_eq dir (hresolve.trans (hfile.trans hresolve'.symm))
  rw [Part.Emits, ← h.crc part hpart part' hpart' hcrc]
  exact hobject

/-- Objects are not kept in the files of the static cache. -/
theorem Identified.objectFile_ne (h : Identified engine programs) {part : Part β}
    (hpart : part ∈ partsOf programs) (dir dir' : CacheDirectory) (key : UInt32) :
    resolve (StaticBinaryCache.cacheFile dir' key) ≠ part.objectFile dir := by
  intro hsame
  refine (h.dotted part hpart).objectFile_notMem dir dir' key ?_
  rw [← hsame]
  exact List.mem_cons_self

/-- The caches in two directories. -/
def CacheDirs.ofStrings (binaries objects : Text) : CacheDirs :=
  ⟨.ofString binaries, .ofString objects⟩

/-- In fresh directories there is nothing to be found. -/
theorem caches_of_fresh (h : Identified engine programs) {binaries objects : Text}
    {fs : FileSystem} (hbinaries : Fresh binaries fs) (hobjects : Fresh objects fs) :
    Caches engine (.ofStrings binaries objects) programs fs where
  binaries := sound_of_empty fun r _ =>
    hbinaries _ (StaticBinaryCache.cacheFile_liesUnder binaries r.key)
  objects := by
    refine sound_of_empty fun part hpart => ?_
    obtain ⟨stem, suffix, hsplit, hfile⟩ :=
      JITCache.cacheFile_of_extension (.ofString objects) (h.dotted part hpart)
    rw [Part.objectFile, Part.modID, CacheDirs.ofStrings, hfile]
    exact hobjects _ (JITCache.cacheFile_liesUnder objects part.entry.crc hsplit)

/-- A step of a program: the caches stay sound, and the static cache loses nothing. -/
structure Goes (engine : Engine β ε) (dirs : CacheDirs) (programs : Set (Allexe β))
    (fs fs' : FileSystem) : Prop where
  caches : Caches engine dirs programs fs'
  kept : ∀ key, fs (resolve (StaticBinaryCache.cacheFile dirs.staticBinaries key)) ≠ none →
    fs' (resolve (StaticBinaryCache.cacheFile dirs.staticBinaries key)) ≠ none

theorem Goes.refl {fs : FileSystem} (h : Caches engine dirs programs fs) :
    Goes engine dirs programs fs fs :=
  ⟨h, fun _ hkept => hkept⟩

theorem Goes.trans {fs fs' fs'' : FileSystem} (h : Goes engine dirs programs fs fs')
    (h' : Goes engine dirs programs fs' fs'') : Goes engine dirs programs fs fs'' :=
  ⟨h'.caches, fun key hkept => h'.kept key (h.kept key hkept)⟩

/-! ## The static path -/

/-- A request whose file is there is done. -/
theorem compileIfNeeded_hit {dir : CacheDirectory} {r : Request β} {fs : FileSystem}
    {image : Bytes} (h : fs (r.file dir) = some image) (env : Environment) :
    r.compileIfNeeded engine.tools dir env fs = .ok (.success, fs) := by
  obtain ⟨hentries, hname⟩ := r.entries_eq
  unfold Request.compileIfNeeded AOTCompileIfNeeded
  rw [hentries]
  simp only [hname, StaticBinaryCache.getObjectFileDesc_main]
  rw [Request.file, Request.key] at h
  rw [h]
  rfl

/-- Where nothing fails, a program that can be compiled is in the cache then. -/
theorem compileIfNeeded_works (dir : CacheDirectory) (r : Request β) (fs : FileSystem)
    {binary : Bytes} (hbinary : Compiled engine r binary) :
    ∃ fs', r.compileIfNeeded engine.tools dir ⟨true, .published⟩ fs = .ok (.success, fs') := by
  cases hfile : fs (r.file dir) with
  | some image => exact ⟨fs, compileIfNeeded_hit hfile _⟩
  | none =>
      obtain ⟨hentries, hname⟩ := r.entries_eq
      unfold Request.compileIfNeeded AOTCompileIfNeeded
      rw [Request.file, Request.key] at hfile
      rw [Compiled, Request.defaultBinary] at hbinary
      obtain ⟨⟨control, fs'⟩, hstore⟩ := StaticBinaryCache.notifyObjectCompiled_ok dir fs
        r.main.crc (some r.options) binary .published
      rw [hentries]
      simp only [hname, StaticBinaryCache.getObjectFileDesc_main, bind, Except.bind, hfile,
        if_true, hbinary, hstore]
      rcases StaticBinaryCache.notifyObjectCompiled_main hstore with
        ⟨rfl, -, -⟩ | ⟨-, hpublished, -⟩
      · exact ⟨fs', rfl⟩
      · exact absurd rfl hpublished

/-- What one request does to the caches. -/
theorem compileIfNeeded_goes (h : Identified engine programs) {r : Request β}
    (hr : r ∈ requests programs) {env : Environment} {fs fs' : FileSystem}
    (hfs : Caches engine dirs programs fs) {result : AOTResult ε}
    (hcall : r.compileIfNeeded engine.tools dirs.staticBinaries env fs = .ok (result, fs')) :
    Goes engine dirs programs fs fs' := by
  have hobjects : Sound (partsOf programs) (Part.objectFile dirs.objects) (Part.Emits engine)
      fs' :=
    hfs.objects.frame fun part hpart =>
      compileIfNeeded_frame hcall ((h.dotted part hpart).objectFile_notMem dirs.objects _)
  rcases compileIfNeeded_cases hcall with
    ⟨-, rfl, -⟩ | ⟨-, binary, hbinary, hfiles⟩ | ⟨-, hfiles⟩
  · exact .refl hfs
  · refine ⟨⟨?_, hobjects⟩, fun key hkept => ?_⟩
    · -- the files of all requests are as after a store for this one
      refine (hfs.binaries.store (h.determines_binaries dirs.staticBinaries) hr hbinary).frame ?_
      intro r' _
      rw [Request.file, hfiles]
      by_cases hkey : r'.key = r.key
      · rw [if_pos hkey, hkey, Request.file, Function.update_self]
      · rw [if_neg hkey, Function.update_of_ne]
        exact fun hsame => hkey (StaticBinaryCache.cacheFile_inj _ hsame)
    · rw [hfiles]
      split
      · exact Option.some_ne_none binary
      · exact hkept
  · refine ⟨⟨hfs.binaries.frame fun r' _ => hfiles r'.key, hobjects⟩, fun key hkept => ?_⟩
    rwa [hfiles]

/-- The image of an allexe is in the static cache. -/
def Ready (dirs : CacheDirs) (allexe : Allexe β) (fs : FileSystem) : Prop :=
  ∃ hsingle : allexe.getNumModules = 1,
    fs ((request allexe hsingle).file dirs.staticBinaries) ≠ none

theorem Ready.goes {allexe : Allexe β} {fs fs' : FileSystem} (h : Ready dirs allexe fs)
    (hgoes : Goes engine dirs programs fs fs') : Ready dirs allexe fs' := by
  obtain ⟨hsingle, hfile⟩ := h
  exact ⟨hsingle, hgoes.kept _ hfile⟩

/-- The forced compilation ends the process with an error, or the image is there. -/
theorem ensureCompiled_spec (h : Identified engine programs) (env : Environment)
    {allexe : Allexe β} (hallexe : allexe ∈ programs) {fs : FileSystem}
    (hfs : Caches engine dirs programs fs) :
    Goes engine dirs programs fs (ensureCompiled engine dirs env allexe fs).2 ∧
      ((ensureCompiled engine dirs env allexe fs).1 = some (.exited 1) ∨
        (ensureCompiled engine dirs env allexe fs).1 = none ∧
          Ready dirs allexe (ensureCompiled engine dirs env allexe fs).2) := by
  rcases @ensureCompiled_eq _ _ engine dirs env allexe fs with
    ⟨-, heq⟩ | ⟨hsingle, result, fs', hcall, ⟨rfl, heq⟩ | ⟨-, heq⟩⟩
  · rw [heq]
    exact ⟨.refl hfs, Or.inl rfl⟩
  · rw [heq]
    refine ⟨compileIfNeeded_goes h ⟨hallexe, rfl⟩ hfs hcall, Or.inr ⟨rfl, hsingle, ?_⟩⟩
    obtain ⟨binary, hfound⟩ := present_of_success hcall
    rw [lookup_eq] at hfound
    exact (Except.ok.inj (Except.ok.inj hfound)).trans_ne (Option.some_ne_none binary)
  · rw [heq]
    exact ⟨compileIfNeeded_goes h ⟨hallexe, rfl⟩ hfs hcall, Or.inl rfl⟩

/-! ## Starts of the programs -/

/-- A start of one of the programs. -/
inductive Invocation (β : Type) where
  | alley (call : AlleyCall β)
  | allready (inputs : List (Option (Allexe β) × Environment))

/-- The allexes that it opens. -/
def Invocation.allexes : Invocation β → List (Allexe β)
  | .alley call => call.allexe.toList
  | .allready inputs => inputs.filterMap Prod.fst

/-- One start, from the files it finds. -/
def runInvocation (engine : Engine β ε) (dirs : CacheDirs) (fs : FileSystem) :
    Invocation β → Outcome × FileSystem
  | .alley call => alley engine dirs call fs
  | .allready inputs => allready engine dirs inputs fs

/-- What runs in the end is the allexe of the call: its one module as the defaults compile
it, or the objects of its modules; and nothing runs unless it was asked for. -/
def Own (engine : Engine β ε) (invocation : Invocation β) : Outcome → Prop
  | .exited _ => True
  | .aborted => False
  | .executes image => ∃ call allexe main, invocation = .alley call ∧ call.noExec = false ∧
      call.allexe = some allexe ∧ allexe.entries = [main] ∧
      compileAndLinkAllexeWithLlcDefaults engine.tools main.contents = .ok image
  | .starts objects => ∃ call allexe, invocation = .alley call ∧ call.noExec = false ∧
      call.allexe = some allexe ∧ objects = objectsOf engine allexe

/-- The JIT changes the cache of objects only. -/
theorem runJIT_spec (h : Identified engine programs) (call : AlleyCall β) {allexe : Allexe β}
    (hcall : call.allexe = some allexe) (hallexe : allexe ∈ programs) {fs : FileSystem}
    (hfs : Caches engine dirs programs fs) :
    Goes engine dirs programs fs (runJIT engine dirs call allexe fs).2 ∧
      Own engine (.alley call) (runJIT engine dirs call allexe fs).1 := by
  have hparts : ∀ part ∈ parts allexe, part ∈ partsOf programs :=
    fun part hpart => ⟨allexe, hallexe, hpart⟩
  obtain ⟨linked, fs', hjit, hlinked, hobjects, hstores⟩ :=
    doJITExec_spec (h.determines_objects dirs.objects) call.jit hfs.objects
      fun part hpart => ⟨hparts part hpart, h.dotted part (hparts part hpart)⟩
  have hstatic (key : UInt32) :
      fs' (resolve (StaticBinaryCache.cacheFile dirs.staticBinaries key)) =
        fs (resolve (StaticBinaryCache.cacheFile dirs.staticBinaries key)) :=
    hstores.frame _ fun part hpart => h.objectFile_ne (hparts part hpart) _ _ key
  have hgoes : Goes engine dirs programs fs fs' :=
    ⟨⟨hfs.binaries.frame fun r _ => hstatic r.key, hobjects⟩, fun key hkept => by
      rwa [hstatic]⟩
  unfold runJIT
  rw [hjit]
  cases linked with
  | none => exact ⟨hgoes, trivial⟩
  | some objects =>
      cases hexec : call.noExec with
      | true => exact ⟨hgoes, trivial⟩
      | false => exact ⟨hgoes, call, allexe, rfl, hexec, hcall, hlinked objects rfl⟩

theorem tryStaticExec_single (dir : CacheDirectory) (fs : FileSystem) {allexe : Allexe β}
    (hsingle : allexe.getNumModules = 1) :
    tryStaticExec dir fs allexe .llcDefaults =
      .ok (.ok (fs ((request allexe hsingle).file dir))) :=
  lookup_eq dir fs (request allexe hsingle)

theorem execute_spec (h : Identified engine programs) (call : AlleyCall β) {allexe : Allexe β}
    (hcall : call.allexe = some allexe) (hallexe : allexe ∈ programs) {fs : FileSystem}
    (hfs : Caches engine dirs programs fs) :
    Goes engine dirs programs fs (execute engine dirs call allexe fs).2 ∧
      Own engine (.alley call) (execute engine dirs call allexe fs).1 := by
  unfold execute
  by_cases hsingle : allexe.getNumModules = 1
  · rw [if_pos hsingle, tryStaticExec_single dirs.staticBinaries fs hsingle]
    cases hfile : fs ((request allexe hsingle).file dirs.staticBinaries) with
    | none => exact runJIT_spec h call hcall hallexe hfs
    | some image =>
        cases hexec : call.noExec with
        | true => exact ⟨.refl hfs, trivial⟩
        | false =>
            cases call.execs with
            | false => exact ⟨.refl hfs, trivial⟩
            | true =>
                exact ⟨.refl hfs, call, allexe, (request allexe hsingle).main, rfl, hexec, hcall,
                  (request allexe hsingle).entries_eq.1,
                  hfs.binaries (request allexe hsingle) ⟨hallexe, rfl⟩ image hfile⟩
  · rw [if_neg hsingle]
    exact runJIT_spec h call hcall hallexe hfs

theorem alley_spec (h : Identified engine programs) (call : AlleyCall β)
    (hprograms : ∀ allexe ∈ call.allexe, allexe ∈ programs) {fs : FileSystem}
    (hfs : Caches engine dirs programs fs) :
    Goes engine dirs programs fs (alley engine dirs call fs).2 ∧
      Own engine (.alley call) (alley engine dirs call fs).1 := by
  unfold alley
  cases hcall : call.allexe with
  | none => exact ⟨.refl hfs, trivial⟩
  | some allexe =>
      have hallexe := hprograms allexe hcall
      cases call.forceStatic with
      | false => exact execute_spec h call hcall hallexe hfs
      | true =>
          by_cases hsingle : allexe.getNumModules = 1
          · obtain ⟨hgoes, hresult⟩ := ensureCompiled_spec h call.aot hallexe hfs
            simp only [if_true, ne_eq, hsingle, not_true_eq_false, if_false]
            generalize ensureCompiled engine dirs call.aot allexe fs = step at hgoes hresult
            obtain ⟨outcome, fs'⟩ := step
            rcases hresult with rfl | ⟨rfl, -⟩
            · exact ⟨hgoes, trivial⟩
            · obtain ⟨hgoes', hown⟩ := execute_spec h call hcall hallexe hgoes.caches
              exact ⟨hgoes.trans hgoes', hown⟩
          · simp only [if_true, ne_eq, hsingle, not_false_eq_true]
            exact ⟨.refl hfs, trivial⟩

/-- `allready` ends with a status; if it is zero, the images of all inputs are there. -/
theorem allready_spec (h : Identified engine programs)
    {inputs : List (Option (Allexe β) × Environment)}
    (hprograms : ∀ allexe ∈ inputs.filterMap Prod.fst, allexe ∈ programs) {fs : FileSystem}
    (hfs : Caches engine dirs programs fs) :
    Goes engine dirs programs fs (allready engine dirs inputs fs).2 ∧
      ((allready engine dirs inputs fs).1 = .exited 1 ∨
        (allready engine dirs inputs fs).1 = .exited 0 ∧
          ∀ allexe ∈ inputs.filterMap Prod.fst,
            Ready dirs allexe (allready engine dirs inputs fs).2) := by
  induction inputs generalizing fs with
  | nil => exact ⟨.refl hfs, Or.inr ⟨rfl, by simp⟩⟩
  | cons input rest ih =>
      obtain ⟨opened, env⟩ := input
      cases opened with
      | none => exact ⟨.refl hfs, Or.inl rfl⟩
      | some allexe =>
          have hmem : ∀ p, p ∈ List.filterMap Prod.fst ((some allexe, env) :: rest) ↔
              p = allexe ∨ p ∈ List.filterMap Prod.fst rest := by simp
          simp only [hmem] at hprograms ⊢
          obtain ⟨hgoes, hresult⟩ :=
            ensureCompiled_spec h env (hprograms allexe (Or.inl rfl)) hfs
          rw [allready]
          generalize ensureCompiled engine dirs env allexe fs = step at hgoes hresult
          obtain ⟨outcome, fs'⟩ := step
          rcases hresult with rfl | ⟨rfl, hready⟩
          · exact ⟨hgoes, Or.inl rfl⟩
          · obtain ⟨hgoes', hstatus⟩ :=
              ih (fun p hp => hprograms p (Or.inr hp)) hgoes.caches
            refine ⟨hgoes.trans hgoes', hstatus.imp_right fun hzero => ⟨hzero.1, ?_⟩⟩
            rintro p (rfl | hp)
            · exact hready.goes hgoes'
            · exact hzero.2 p hp

/-- **One start** of either program. -/
theorem runInvocation_spec (h : Identified engine programs) (invocation : Invocation β)
    (hprograms : ∀ allexe ∈ invocation.allexes, allexe ∈ programs) {fs : FileSystem}
    (hfs : Caches engine dirs programs fs) :
    Goes engine dirs programs fs (runInvocation engine dirs fs invocation).2 ∧
      Own engine invocation (runInvocation engine dirs fs invocation).1 := by
  cases invocation with
  | alley call =>
      exact alley_spec h call (fun allexe hcall => hprograms allexe (by
        rw [Invocation.allexes, hcall]
        exact List.mem_singleton_self allexe)) hfs
  | allready inputs =>
      obtain ⟨hgoes, hstatus⟩ := allready_spec h hprograms hfs
      refine ⟨hgoes, ?_⟩
      rcases hstatus with hone | ⟨hzero, -⟩
      · rw [runInvocation, hone]
        trivial
      · rw [runInvocation, hzero]
        trivial

/-- Starts in a row keep the caches sound, and the static cache loses nothing. -/
theorem answers_goes (h : Identified engine programs) {invocations : List (Invocation β)}
    (hprograms : ∀ invocation ∈ invocations, ∀ allexe ∈ invocation.allexes, allexe ∈ programs)
    {fs : FileSystem} (hfs : Caches engine dirs programs fs) :
    Goes engine dirs programs fs (answers (runInvocation engine dirs) fs invocations).2 :=
  answers_invariant
    (fun _ invocation hmem hgoes => hgoes.trans
      (runInvocation_spec h invocation (hprograms invocation hmem) hgoes.caches).1)
    (.refl hfs)

/-! ### Two programs -/

/-- Code generation that marks what it went through. -/
def markingEngine : Engine Bytes Text where
  tools := levelTools
  libcxxabiKludge := fun contents => 75 :: contents
  emitObject := fun contents => 79 :: contents

/-- A program of one module, and one that is linked against the C++ runtime. -/
def onlyMain : Allexe Bytes :=
  ⟨[⟨allexeMain, 5, [65]⟩], by simp⟩

def withRuntime : Allexe Bytes :=
  ⟨[⟨allexeMain, 8, [67]⟩, ⟨ascii "libc++abi.bc", 9, [68]⟩], by simp⟩

theorem partsOf_two {part : Part Bytes} (h : part ∈ partsOf {onlyMain, withRuntime}) :
    part = ⟨false, allexeMain, 5, [65]⟩ ∨ part = ⟨false, allexeMain, 8, [67]⟩ ∨
      part = ⟨true, ascii "libc++abi.bc", 9, [68]⟩ := by
  obtain ⟨allexe, rfl | rfl, hpart⟩ := h
  · exact Or.inl (List.mem_singleton.mp hpart)
  · rcases List.mem_cons.mp hpart with rfl | hpart
    · exact Or.inr (Or.inl rfl)
    · exact Or.inr (Or.inr (List.mem_singleton.mp hpart))

theorem identified_two : Identified markingEngine {onlyMain, withRuntime} where
  dotted := by
    intro part hpart
    unfold Part.Dotted
    rcases partsOf_two hpart with rfl | rfl | rfl <;> decide
  crc := by
    intro part hpart part' hpart' hcrc
    rcases partsOf_two hpart with rfl | rfl | rfl <;>
      rcases partsOf_two hpart' with rfl | rfl | rfl <;>
        first
          | rfl
          | exact absurd hcrc (by decide)

/-- A start of `alley` in surroundings where everything works. -/
def startOf (allexe : Allexe Bytes) : AlleyCall Bytes where
  allexe := some allexe
  forceStatic := false
  noExec := false
  execs := true
  aot := ⟨true, .published⟩
  jit := ⟨true, true, fun _ => ⟨true, true, true⟩⟩

/-- The program of one module is compiled once, and both are started. -/
def startsOfTwo : List (Invocation Bytes) :=
  [.alley (startOf withRuntime), .allready [(some onlyMain, ⟨true, .published⟩)],
    .alley (startOf onlyMain), .alley (startOf withRuntime)]

theorem startsOfTwo_programs : ∀ invocation ∈ startsOfTwo, ∀ allexe ∈ invocation.allexes,
    allexe ∈ ({onlyMain, withRuntime} : Set (Allexe Bytes)) := by
  simp [startsOfTwo, Invocation.allexes, startOf]

/-- **Whatever the caches hold by then, what a start executes or links was compiled from
the modules of its own allexe**, and no start ends in an exception. -/
theorem runs_own_modules (h : Identified engine programs) {binaries objects : Text}
    {fs : FileSystem} (hbinaries : Fresh binaries fs) (hobjects : Fresh objects fs)
    {invocations : List (Invocation β)}
    (hprograms : ∀ invocation ∈ invocations, ∀ allexe ∈ invocation.allexes, allexe ∈ programs) :
    List.Forall₂ (Own engine) invocations
      (answers (runInvocation engine (.ofStrings binaries objects)) fs
        invocations).1 := by
  refine answers_forall₂ (fun fs' invocation hmem hcaches => ?_)
    (caches_of_fresh h hbinaries hobjects)
  obtain ⟨hgoes, hown⟩ := runInvocation_spec h invocation (hprograms invocation hmem) hcaches
  exact ⟨hown, hgoes.caches⟩

theorem runs_own_modules_two :
    List.Forall₂ (Own markingEngine) startsOfTwo
      (answers (runInvocation markingEngine (.ofStrings (ascii "/cache/s") (ascii "/cache/o")))
        (fun _ => none) startsOfTwo).1 :=
  runs_own_modules identified_two (fun _ _ => rfl) (fun _ _ => rfl) startsOfTwo_programs

/-- An allexe whose image is there is executed from it, forced or not. -/
theorem alley_of_ready {call : AlleyCall β} {allexe : Allexe β} (hcall : call.allexe = some allexe)
    (hexec : call.noExec = false) (hexecs : call.execs = true) {fs : FileSystem}
    (hready : Ready dirs allexe fs) :
    ∃ image, alley engine dirs call fs = (.executes image, fs) := by
  obtain ⟨hsingle, hfile⟩ := hready
  obtain ⟨image, hfile⟩ := Option.ne_none_iff_exists'.mp hfile
  have hexecute : execute engine dirs call allexe fs = (.executes image, fs) := by
    unfold execute
    rw [if_pos hsingle, tryStaticExec_single dirs.staticBinaries fs hsingle, hfile, hexec, hexecs]
    rfl
  refine ⟨image, ?_⟩
  unfold alley
  rw [hcall]
  cases call.forceStatic with
  | false => exact hexecute
  | true =>
      have hhit : AOTCompileIfNeeded engine.tools dirs.staticBinaries call.aot allexe .llcDefaults
          fs = .ok (.success, fs) :=
        compileIfNeeded_hit hfile call.aot
      simp only [if_true, ne_eq, hsingle, not_true_eq_false, if_false, ensureCompiled, hhit]
      exact hexecute

/-- **What `allready` has reported as cached is executed from the static cache from then
on**, whatever is started in between. -/
theorem ready_executes (h : Identified engine programs) {binaries objects : Text}
    {fs : FileSystem} (hbinaries : Fresh binaries fs) (hobjects : Fresh objects fs)
    {before between : List (Invocation β)} {inputs : List (Option (Allexe β) × Environment)}
    (hprograms : ∀ invocation ∈ before ++ .allready inputs :: between,
      ∀ allexe ∈ invocation.allexes, allexe ∈ programs)
    (hstatus : (allready engine (.ofStrings binaries objects) inputs
      (answers (runInvocation engine (.ofStrings binaries objects)) fs before).2).1 =
        .exited 0)
    {call : AlleyCall β} {allexe : Allexe β} (hcall : call.allexe = some allexe)
    (hallexe : allexe ∈ inputs.filterMap Prod.fst) (hexec : call.noExec = false)
    (hexecs : call.execs = true) :
    ∃ main image, allexe.entries = [main] ∧
      compileAndLinkAllexeWithLlcDefaults engine.tools main.contents = .ok image ∧
      (alley engine (.ofStrings binaries objects) call
        (answers (runInvocation engine (.ofStrings binaries objects)) fs
          (before ++ .allready inputs :: between)).2).1 = .executes image := by
  obtain ⟨hfirst, hothers⟩ := List.forall_mem_append.mp hprograms
  obtain ⟨hinputs, hrest⟩ := List.forall_mem_cons.mp hothers
  rw [answers_append, answers_cons]
  have hbefore := answers_goes h hfirst (caches_of_fresh h hbinaries hobjects)
  generalize (answers (runInvocation engine (.ofStrings binaries objects)) fs before).2 = fs₁
    at hstatus hbefore ⊢
  obtain ⟨hallready, hone | ⟨-, hready⟩⟩ := allready_spec h hinputs hbefore.caches
  · rw [hone] at hstatus
    cases hstatus
  · have hbetween := answers_goes h hrest hallready.caches
    obtain ⟨image, hrun⟩ := @alley_of_ready _ _ engine _ _ _ hcall hexec hexecs _
      ((hready allexe hallexe).goes hbetween)
    have hown := (alley_spec h call (fun p hp => by
      rw [hcall] at hp
      rw [← Option.some.inj hp]
      exact hinputs allexe hallexe) hbetween.caches).2
    rw [hrun] at hown
    obtain ⟨call', allexe', main, hsame, -, hcall', hentries, hcompiled⟩ := hown
    obtain rfl := Invocation.alley.inj hsame
    obtain rfl : allexe = allexe' := Option.some.inj (hcall.symm.trans hcall')
    refine ⟨main, image, hentries, hcompiled, ?_⟩
    exact congrArg Prod.fst hrun

/-- The image is still there after another program was started. -/
theorem ready_executes_onlyMain : ∃ main image, onlyMain.entries = [main] ∧
    compileAndLinkAllexeWithLlcDefaults levelTools main.contents = .ok image ∧
    (alley markingEngine (.ofStrings (ascii "/cache/s") (ascii "/cache/o")) (startOf onlyMain)
      (answers (runInvocation markingEngine (.ofStrings (ascii "/cache/s") (ascii "/cache/o")))
        (fun _ => none)
        ([] ++ .allready [(some onlyMain, ⟨true, .published⟩)] ::
          [.alley (startOf withRuntime)])).2).1 = .executes image := by
  refine ready_executes identified_two (fun _ _ => rfl) (fun _ _ => rfl) ?_ ?_ rfl (by simp) rfl rfl
  · simp [Invocation.allexes, startOf]
  · obtain ⟨fs, hcall⟩ := compileIfNeeded_works
      (.ofString (ascii "/cache/s")) (request onlyMain rfl) (fun _ => none)
      (show Compiled markingEngine _ [65, 2] from rfl)
    have hcall' : AOTCompileIfNeeded markingEngine.tools (.ofString (ascii "/cache/s"))
      ⟨true, .published⟩ onlyMain .llcDefaults (fun _ => none) = .ok (.success, fs) := hcall
    simp only [answers, CacheDirs.ofStrings, allready, ensureCompiled, hcall']

end Alley
end AllvmTools
