import AllvmTools.AOTCompile.AOTCompile
import AllvmTools.Cache.JITCache

/-!
# `alley` and `allready`

The programs that run allexes, as far as their outcome and their caches go: the
static path of `alley`, its way through `doJITExec`, and `allready`, which only fills
the static cache.

What LLVM does is a parameter: `Engine` is its code generation, and a `JITStep` says
what its functions and the system do while a module is loaded and compiled.
-/

namespace AllvmTools
namespace Alley

open Library Library.Paths Library.Files Cache AOTCompile StaticCodeGen

variable {β ε : Type}

/-! ## The engine -/

/-- Code generation: for the static path, and for a module of the JIT, which
`libcxxabiKludge` may change before. -/
structure Engine (β ε : Type) where
  tools : Toolchain β ε
  libcxxabiKludge : β → β
  emitObject : β → Bytes

/-- The directories of the two caches. -/
structure CacheDirs where
  staticBinaries : CacheDirectory
  objects : CacheDirectory

/-- What happens to one module: its bitcode can be parsed, it can be materialized,
and its file in the cache can be opened for writing. -/
structure JITStep where
  parsed : Bool
  materialized : Bool
  opened : Bool

/-- A module of an allexe; `doJITExec` changes libraries only. -/
structure Part (β : Type) where
  isLibrary : Bool
  entry : Entry β

/-- The main module, and the libraries in their order. -/
def parts (allexe : Allexe β) : List (Part β) :=
  match allexe.entries with
  | [] => []
  | main :: libraries => ⟨false, main⟩ :: libraries.map fun library => ⟨true, library⟩

/-- The identifier that `doJITExec` sets. -/
def Part.modID (part : Part β) : Text :=
  generateName part.entry.name part.entry.crc

/-- The name by which `libcxxabiKludge` knows its library. -/
def libcxxabi : Text :=
  ascii "libc++abi"

/-- The module as it is compiled if there is no object for it. -/
def Part.prepared (engine : Engine β ε) (part : Part β) : β :=
  if part.isLibrary && decide (libcxxabi <:+: part.modID) then
    engine.libcxxabiKludge part.entry.contents
  else
    part.entry.contents

/-- A module that was added to the execution engine. -/
structure JITModule (β : Type) where
  modID : Text
  contents : β

/-! ## `doJITExec` -/

/-- `LoadModule` and what `doJITExec` does with the module; `none` is an error. -/
def loadModule (engine : Engine β ε) (dir : CacheDirectory) (fs : FileSystem) (step : JITStep)
    (part : Part β) : Except StdException (Option (JITModule β)) := do
  if step.parsed then
    if ← JITCache.hasObjectFor dir fs part.modID then
      return some ⟨part.modID, part.entry.contents⟩
    else if step.materialized then
      return some ⟨part.modID, part.prepared engine⟩
    else
      return none
  else
    return none

/-- All modules; `steps` says what happens to the first of them and on. -/
def loadModules (engine : Engine β ε) (dir : CacheDirectory) (fs : FileSystem) :
    (Nat → JITStep) → List (Part β) → Except StdException (Option (List (JITModule β)))
  | _, [] => return some []
  | steps, part :: rest => do
      match ← loadModule engine dir fs (steps 0) part with
      | none => return none
      | some module =>
          match ← loadModules engine dir fs (fun idx => steps (idx + 1)) rest with
          | none => return none
          | some modules => return some (module :: modules)

/-- The object of one module: the engine asks the cache for it, and tells the cache
about an object that it compiled. -/
def objectOf (engine : Engine β ε) (dir : CacheDirectory) (fs : FileSystem) (opened : Bool)
    (module : JITModule β) : Except StdException (Bytes × FileSystem) := do
  match ← JITCache.getObject dir fs module.modID with
  | some object => return (object, fs)
  | none =>
      let object := engine.emitObject module.contents
      let fs' ← JITCache.notifyObjectCompiled dir fs module.modID object opened
      return (object, fs')

/-- The objects of all modules. -/
def finalizeObject (engine : Engine β ε) (dir : CacheDirectory) :
    (Nat → JITStep) → List (JITModule β) → FileSystem →
      Except StdException (List Bytes × FileSystem)
  | _, [], fs => return ([], fs)
  | steps, module :: rest, fs => do
      let first ← objectOf engine dir fs (steps 0).opened module
      let others ← finalizeObject engine dir (fun idx => steps (idx + 1)) rest first.2
      return (first.1 :: others.1, others.2)

/-- What LLVM and the system do during one call of `doJITExec`: the engine is built,
the vectors of the program fit its stack, and the steps of the modules. -/
structure JITEnvironment where
  engineBuilt : Bool
  fitsStack : Bool
  steps : Nat → JITStep

/-- `doJITExec`, up to the start of the program: the objects it is linked from, or
`none` for an error. -/
def doJITExec (engine : Engine β ε) (dir : CacheDirectory) (env : JITEnvironment)
    (allexe : Allexe β) (fs : FileSystem) :
    Except StdException (Option (List Bytes) × FileSystem) := do
  match parts allexe with
  | [] => return (none, fs)
  | main :: libraries =>
      match ← loadModule engine dir fs (env.steps 0) main with
      | none => return (none, fs)
      | some mainMod =>
          if env.engineBuilt then
            match ← loadModules engine dir fs (fun idx => env.steps (idx + 1)) libraries with
            | none => return (none, fs)
            | some modules =>
                if env.fitsStack then
                  let linked ← finalizeObject engine dir env.steps (mainMod :: modules) fs
                  return (some linked.1, linked.2)
                else
                  return (none, fs)
          else
            return (none, fs)

/-! ## The programs -/

/-- How a process ends, or what it becomes. -/
inductive Outcome where
  | exited (status : Nat)
  /-- An exception that nobody catches. -/
  | aborted
  /-- The process executes an image of the static cache. -/
  | executes (image : Bytes)
  /-- The process starts a program linked from objects. -/
  | starts (objects : List Bytes)
deriving DecidableEq, Repr

/-- `ExitOnErr (AOTCompileIfNeeded (..))`, with the options both programs use; `none`
is a process that goes on. -/
def ensureCompiled (engine : Engine β ε) (dirs : CacheDirs) (env : Environment)
    (allexe : Allexe β) (fs : FileSystem) : Option Outcome × FileSystem :=
  match AOTCompileIfNeeded engine.tools dirs.staticBinaries env allexe .llcDefaults fs with
  | .error _ => (some .aborted, fs)
  | .ok (.success, fs') => (none, fs')
  | .ok (.failure _, fs') => (some (.exited 1), fs')
  | .ok (.exited, fs') => (some (.exited 1), fs')

/-- One start of `alley`: the allexe that `openForReading` gives, if it does, the
options, and what the surroundings decide. -/
structure AlleyCall (β : Type) where
  allexe : Option (Allexe β)
  forceStatic : Bool
  noExec : Bool
  /-- `fexecve` succeeds. -/
  execs : Bool
  aot : Environment
  jit : JITEnvironment

/-- `ExitOnErr (EY.doJITExec ())` and the end of `main`. -/
def runJIT (engine : Engine β ε) (dirs : CacheDirs) (call : AlleyCall β) (allexe : Allexe β)
    (fs : FileSystem) : Outcome × FileSystem :=
  match doJITExec engine dirs.objects call.jit allexe fs with
  -- a name is first looked up when its module is loaded, before anything is stored
  | .error _ => (.aborted, fs)
  | .ok (none, fs') => (.exited 1, fs')
  | .ok (some objects, fs') => if call.noExec then (.exited 0, fs') else (.starts objects, fs')

/-- The part of `main` behind the forced compilation. -/
def execute (engine : Engine β ε) (dirs : CacheDirs) (call : AlleyCall β) (allexe : Allexe β)
    (fs : FileSystem) : Outcome × FileSystem :=
  if allexe.getNumModules = 1 then
    match tryStaticExec dirs.staticBinaries fs allexe .llcDefaults with
    | .error _ => (.aborted, fs)
    | .ok (.error _) => (.exited 1, fs)
    | .ok (.ok (some image)) =>
        if call.noExec then (.exited 0, fs)
        else if call.execs then (.executes image, fs)
        else (.exited 1, fs)
    | .ok (.ok none) => runJIT engine dirs call allexe fs
  else
    runJIT engine dirs call allexe fs

/-- `main` of `alley`. -/
def alley (engine : Engine β ε) (dirs : CacheDirs) (call : AlleyCall β) (fs : FileSystem) :
    Outcome × FileSystem :=
  match call.allexe with
  | none => (.exited 1, fs)
  | some allexe =>
      if call.forceStatic then
        if allexe.getNumModules ≠ 1 then (.exited 1, fs)
        else
          match ensureCompiled engine dirs call.aot allexe fs with
          | (some outcome, fs') => (outcome, fs')
          | (none, fs') => execute engine dirs call allexe fs'
      else
        execute engine dirs call allexe fs

/-- `main` of `allready`: the inputs are compiled one after the other. -/
def allready (engine : Engine β ε) (dirs : CacheDirs) :
    List (Option (Allexe β) × Environment) → FileSystem → Outcome × FileSystem
  | [], fs => (.exited 0, fs)
  | (none, _) :: _, fs => (.exited 1, fs)
  | (some allexe, env) :: rest, fs =>
      match ensureCompiled engine dirs env allexe fs with
      | (some outcome, fs') => (outcome, fs')
      | (none, fs') => allready engine dirs rest fs'

end Alley
end AllvmTools
