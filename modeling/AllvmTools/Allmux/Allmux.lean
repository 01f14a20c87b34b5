import AllvmTools.Allexe.Allexe
import AllvmTools.Allmux.IRModule
import AllvmTools.Library.Crc32
import AllvmTools.Library.FirstOccurrences
import AllvmTools.Library.Paths
import AllvmTools.Tools.OutputScope

/-!
# The multiplexer

`allmux` reads its input allexes, generates the dispatching main, renames and
internalizes the mains of the inputs, and adds every library once, by CRC.

* `readEntries` — the inputs that are accepted.
* `allmuxBody` — the output scope.
* `MuxOutput.Of` — the modules of the output, without the archive around them.
* `ensures_allmuxBody` — a scope that ends without an error added just these.
-/

namespace AllvmTools
namespace Allmux

open Library Library.Files Library.Paths Library.Leaving Library.Leaving.Program
open Library.FirstOccurrences Archive Tools

/-! ## Inputs -/

/-- An input after `Allexe::openForReading`, which may have failed; entry names of
an archive have 16-bit lengths. -/
structure Input where
  path : OpenedPath
  allexe : Option (Allexe Bytes)
  names : ∀ A ∈ allexe, ∀ e ∈ A.entries, e.name.length ≤ 0xFFFF

/-- `Entry`: an accepted input with its main module. -/
structure MuxEntry (γ : Type) where
  path : OpenedPath
  allexe : Allexe Bytes
  main : IRModule γ
  names : ∀ e ∈ allexe.entries, e.name.length ≤ 0xFFFF

/-- One step of the generated code for an entry. -/
inductive MuxCall where
  | callCtor (name : Text)
  | registerDtor (name : Text)
deriving DecidableEq, Repr

/-- The blocks that `genMain` makes for one entry: compared with `base`, and on a
match the steps, the call of the real main with that many arguments, and the
return of its result. -/
structure Case where
  base : Text
  steps : List MuxCall
  realMain : Text
  args : Nat
  isVoid : Bool
deriving DecidableEq, Repr

/-- What is used of LLVM: reading bitcode, writing it, and `mux_main.bc` with the
generated `__select`, if it can be read and verified. -/
structure Bitcode (γ : Type) where
  read : Bytes → Option (IRModule γ)
  write : IRModule γ → Buffer
  muxMain : List Case → Option Buffer

variable {γ : Type}

/-- The loop over the input files: `none` is an error exit. -/
def readEntries (bitcode : Bitcode γ) (basenames : List Text) :
    List Input → Option (List (MuxEntry γ))
  | [] => some []
  | input :: rest =>
      match hA : input.allexe with
      | none => none
      | some A =>
          match A.entries with
          | [] => none
          | first :: _ =>
              match bitcode.read first.contents with
              | none => none
              | some main =>
                  if filename input.path.text ∈ basenames then none
                  else
                    (readEntries bitcode (filename input.path.text :: basenames) rest).map
                      (⟨input.path, A, main, input.names A hA⟩ :: ·)

/-! ## Generated names -/

/-- `-` between the CRC and the file name. -/
def dash : UInt8 := 45

/-- `getModName`. -/
def getModName (lib : Entry Bytes) : Text :=
  let crc := Text.hexUpper lib.crc.toNat
  if hasFilename lib.name then crc ++ dash :: filename lib.name else crc

def getLibCtorsName (lib : Entry Bytes) : Text :=
  ascii "ctors_" ++ getModName lib

def getLibDtorsName (lib : Entry Bytes) : Text :=
  ascii "dtors_" ++ getModName lib

namespace MuxEntry

variable (e : MuxEntry γ)

/-- `Base`. -/
def base : Text :=
  filename e.path.text

/-- `MainName`. -/
def mainName : Text :=
  ascii "main_" ++ e.base

def getCtorsName : Text :=
  ascii "ctors_" ++ e.base

def getDtorsName : Text :=
  ascii "dtors_" ++ e.base

/-- The modules behind the first one. -/
def libs : List (Entry Bytes) :=
  e.allexe.entries.drop 1

end MuxEntry

/-! ## The generated main -/

/-- The parameters of `__select` behind the name. -/
def selectParams : List Ty :=
  [.int 32, .pointer (.pointer (.int 8)), .pointer (.pointer (.int 8))]

def mainText : Text := ascii "main"

/-- The call of a library's constructors and the registration of its destructors. -/
def libSteps (lib : Entry Bytes) : List MuxCall :=
  [.callCtor (getLibCtorsName lib), .registerDtor (getLibDtorsName lib)]

/-- The body of `genMain`'s loop, in the order it emits: the libraries from the
last one down to the first, the entry's own functions, the call.  Without a main
function it crashes, an argument type that differs aborts, and the rest is found
by the verifier. -/
def genCase (e : MuxEntry γ) : Option Case :=
  match e.main.getFunction mainText with
  | none => none
  | some type =>
      if type.params <+: selectParams ∧ (type.result = .void ∨ type.result = .int 32) then
        some
          { base := e.base
            steps := e.libs.reverse.flatMap libSteps ++
              [.callCtor e.getCtorsName, .registerDtor e.getDtorsName]
            realMain := e.mainName
            args := type.params.length
            isVoid := decide (type.result = .void) }
      else
        none

/-- `genMain`. -/
def genMain : List (MuxEntry γ) → Option (List Case)
  | [] => some []
  | e :: rest =>
      match genCase e, genMain rest with
      | some c, some cs => some (c :: cs)
      | _, _ => none

/-! ## Rewriting the mains -/

/-- The names `processGlobal` keeps. -/
def alwaysPreserved : List Text :=
  [ascii "llvm.used", ascii "llvm.compiler.used", ascii "llvm.global_ctors",
    ascii "llvm.global_dtors", ascii "llvm.global.annotations", ascii "__stack_chk_fail",
    ascii "__stack_chk_guard"]

/-- `processGlobal`. -/
def processGlobal (name : Text) (g : Global γ) : Global γ :=
  if name ∈ alwaysPreserved then g
  else if g.isDeclaration then g
  else g.setLinkage .internal

/-- `internalizeModule` and the loops behind it: together they process functions
other than the main one, variables and aliases, but no indirect functions. -/
def internalize (mainName name : Text) (g : Global γ) : Global γ :=
  if name = mainName then g
  else
    match g.content with
    | .ifunc _ => g
    | _ => processGlobal name g

/-- `setLinkage` and `setVisibility` of the renamed main. -/
def exportMain (g : Global γ) : Global γ :=
  { g.setLinkage .external with visibility := .defaultVisibility }

/-- Renaming the main function and internalizing the rest. -/
def renameMain (noInternalize : Bool) (m : IRModule γ) (mainName : Text) : IRModule γ :=
  let renamed := m.rename mainText mainName
  let exported := renamed.2.mapSymbols fun name g =>
    if name = renamed.1 then exportMain g else g
  if noInternalize then exported else exported.mapSymbols (internalize renamed.1)

/-- The loop's body that adds the mains: `none` is an error exit. -/
def rewriteMain (noInternalize : Bool) (e : MuxEntry γ) : Option (IRModule γ) :=
  if e.main.materializes = false then none
  else if (e.main.getFunction mainText).isNone then none
  else
    match (renameMain noInternalize e.main e.mainName).replaceCtors e.getCtorsName with
    | none => none
    | some m => m.replaceDtors e.getDtorsName

/-! ## Libraries -/

/-- The keys `DenseSet<uint32_t>` keeps for itself. -/
def isReserved (key : UInt32) : Bool :=
  key == 0xFFFFFFFF || key == 0xFFFFFFFE

/-- `DenseSet::insert` with its `second`: in a table that is not empty a reserved
key is found. -/
def denseInsert (keys : List UInt32) (key : UInt32) : Bool × List UInt32 :=
  if keys = [] then (true, [key])
  else if isReserved key then (false, keys)
  else if key ∈ keys then (false, keys)
  else (true, key :: keys)

/-- The libraries that the loop adds. -/
def newLibs (keys : List UInt32) : List (Entry Bytes) → List (Entry Bytes)
  | [] => []
  | lib :: rest =>
      match denseInsert keys lib.crc with
      | (true, keys) => lib :: newLibs keys rest
      | (false, keys) => newLibs keys rest

/-- All libraries of the entries, in the order of the loop. -/
def libraries (es : List (MuxEntry γ)) : List (Entry Bytes) :=
  es.flatMap MuxEntry.libs

/-- The library loop's body: `none` is an error exit. -/
def rewriteLib (bitcode : Bitcode γ) (lib : Entry Bytes) : Option (IRModule γ) :=
  match bitcode.read lib.contents with
  | none => none
  | some m =>
      if m.materializes = false then none
      else
        match m.replaceCtors (getLibCtorsName lib) with
        | none => none
        | some m => m.replaceDtors (getLibDtorsName lib)

/-! ## The output scope -/

/-- `MainName + ".bc"`. -/
def MuxEntry.outputName (e : MuxEntry γ) : Text :=
  e.mainName ++ ascii ".bc"

/-- Adding the mains. -/
def addMains (bitcode : Bitcode γ) (noInternalize : Bool) : List (MuxEntry γ) → Scope Unit
  | [] => pure ()
  | e :: rest => do
      let m ← exitOnErr (rewriteMain noInternalize e)
      addModule .exits (bitcode.write m) allexeMain e.outputName
      addMains bitcode noInternalize rest

/-- Adding the libraries; the identifier of a module is the entry's name. -/
def addLibs (bitcode : Bitcode γ) : List (Entry Bytes) → Scope Unit
  | [] => pure ()
  | lib :: rest => do
      let m ← exitOnErr (rewriteLib bitcode lib)
      addModule .exits (bitcode.write m) lib.name lib.name
      addLibs bitcode rest

/-- The output scope of `main`. -/
def allmuxBody (bitcode : Bitcode γ) (noInternalize : Bool) (es : List (MuxEntry γ)) :
    Scope Unit := do
  let cases ← exitOnErr (genMain es)
  let main ← exitOnErr (bitcode.muxMain cases)
  addModule .exits main allexeMain allexeMain
  addMains bitcode noInternalize es
  addLibs bitcode (newLibs [] (libraries es))

/-! ## The modules of the output -/

/-- The modules of an output: the cases of the generated main, the rewritten
mains, and the added libraries with their rewritten modules. -/
structure MuxOutput (γ : Type) where
  cases : List Case
  main : Buffer
  mains : List (IRModule γ)
  libs : List (Entry Bytes × IRModule γ)

/-- The output of these entries. -/
structure MuxOutput.Of (bitcode : Bitcode γ) (noInternalize : Bool) (es : List (MuxEntry γ))
    (out : MuxOutput γ) : Prop where
  cases : genMain es = some out.cases
  main : bitcode.muxMain out.cases = some out.main
  mains : List.Forall₂ (fun e m => rewriteMain noInternalize e = some m) es out.mains
  libs : out.libs.map Prod.fst = newLibs [] (libraries es)
  rewritten : ∀ lib ∈ out.libs, rewriteLib bitcode lib.1 = some lib.2

/-- A rewritten main as a module of the archive. -/
def mainModule (bitcode : Bitcode γ) (e : MuxEntry γ) (m : IRModule γ) : Archive.Module :=
  ⟨e.outputName, (bitcode.write m).bytes⟩

/-- A library as a module of the archive. -/
def libModule (bitcode : Bitcode γ) (lib : Entry Bytes × IRModule γ) : Archive.Module :=
  ⟨lib.1.name, (bitcode.write lib.2).bytes⟩

/-- The modules of the output archive. -/
def MuxOutput.modules (bitcode : Bitcode γ) (es : List (MuxEntry γ)) (out : MuxOutput γ) :
    List Archive.Module :=
  ⟨allexeMain, out.main.bytes⟩ ::
    (List.zipWith (mainModule bitcode) es out.mains ++ out.libs.map (libModule bitcode))

/-! ## What the scope adds -/

section Scope

variable {bitcode : Bitcode γ} {noInternalize : Bool} {start : ZipArchive}
  {modules : List Archive.Module}

theorem length_filename_le (path : Text) : (filename path).length ≤ path.length := by
  unfold filename
  split
  · next h =>
      cases path with
      | nil => cases h.1
      | cons b rest => simp
  · rw [List.length_drop]
    omega

theorem length_outputName (e : MuxEntry γ) : e.outputName.length ≤ 0xFFFF := by
  have hpath := e.path.short
  have hbase := length_filename_le e.path.text
  have hmain : (ascii "main_").length = 5 := by decide
  have hsuffix : (ascii ".bc").length = 3 := by decide
  simp only [MuxEntry.outputName, MuxEntry.mainName, MuxEntry.base, List.length_append]
  omega

theorem outputName_ne_nil (e : MuxEntry γ) : e.outputName ≠ [] := by
  intro hnil
  have hlength := congrArg List.length hnil
  have hmain : (ascii "main_").length = 5 := by decide
  simp only [MuxEntry.outputName, MuxEntry.mainName, List.length_append, List.length_nil] at hlength
  omega

/-- A module that is generated or read and then added. -/
theorem ensures_add {m : Option (IRModule γ)} {identifier name added : Text}
    {rest : Scope Unit} {post : Unit → Output → Prop}
    (hadded : (if name = [] then identifier else name) = added) (hshort : added.length ≤ 0xFFFF)
    (hrest : ∀ m', m = some m' →
      Ensures (Adds start (modules ++ [⟨added, (bitcode.write m').bytes⟩])) rest post) :
    Ensures (Adds start modules)
      (do
        let m ← exitOnErr m
        addModule .exits (bitcode.write m) identifier name
        rest) post := by
  apply Ensures.orLeave
  intro m' hm
  have hadd : Ensures (Adds start modules) (addModule .exits (bitcode.write m') identifier name)
      fun _ => Adds start (modules ++ [⟨added, (bitcode.write m').bytes⟩]) := by
    unfold addModule
    rw [hadded]
    exact ensures_addEntry .exits (bitcode.write m') hshort
  exact hadd.bind fun _ => hrest m' hm

theorem ensures_addMains (es : List (MuxEntry γ)) :
    Ensures (Adds start modules) (addMains bitcode noInternalize es) fun _ out =>
      ∃ mains, List.Forall₂ (fun e m => rewriteMain noInternalize e = some m) es mains ∧
        Adds start (modules ++ List.zipWith (mainModule bitcode) es mains) out := by
  induction es generalizing modules with
  | nil =>
      apply Ensures.pure
      intro out hout
      refine ⟨[], .nil, ?_⟩
      simpa using hout
  | cons e rest ih =>
      rw [addMains]
      refine ensures_add (if_neg (outputName_ne_nil e)) (length_outputName e) ?_
      intro m hm out _ out' hout hrun
      obtain ⟨mains, hmains, hadds⟩ := ih out _ out' hout hrun
      refine ⟨m :: mains, .cons hm hmains, ?_⟩
      simpa [mainModule] using hadds

theorem ensures_addLibs (libs : List (Entry Bytes))
    (hnames : ∀ lib ∈ libs, lib.name.length ≤ 0xFFFF) :
    Ensures (Adds start modules) (addLibs bitcode libs) fun _ out =>
      ∃ added : List (Entry Bytes × IRModule γ), added.map Prod.fst = libs ∧
        (∀ lib ∈ added, rewriteLib bitcode lib.1 = some lib.2) ∧
        Adds start (modules ++ added.map (libModule bitcode)) out := by
  induction libs generalizing modules with
  | nil =>
      apply Ensures.pure
      intro out hout
      refine ⟨[], rfl, fun lib h => absurd h List.not_mem_nil, ?_⟩
      simpa using hout
  | cons lib rest ih =>
      rw [addLibs]
      refine ensures_add (ite_self lib.name) (hnames lib List.mem_cons_self) ?_
      intro m hm out _ out' hout hrun
      obtain ⟨added, hlibs, hrewritten, hadds⟩ :=
        ih (fun lib h => hnames lib (List.mem_cons_of_mem _ h)) out _ out' hout hrun
      refine ⟨(lib, m) :: added, by rw [List.map_cons, hlibs], ?_, ?_⟩
      · intro lib' hlib'
        rcases List.mem_cons.mp hlib' with rfl | h
        · exact hm
        · exact hrewritten lib' h
      · simpa [libModule] using hadds

theorem newLibs_sublist (keys : List UInt32) (libs : List (Entry Bytes)) :
    (newLibs keys libs).Sublist libs := by
  induction libs generalizing keys with
  | nil => exact List.Sublist.slnil
  | cons lib rest ih =>
      rw [newLibs]
      split
      · exact (ih _).cons_cons lib
      · exact (ih _).cons lib

theorem length_name_libraries {es : List (MuxEntry γ)} :
    ∀ lib ∈ libraries es, lib.name.length ≤ 0xFFFF := by
  intro lib hlib
  obtain ⟨e, -, hmem⟩ := List.mem_flatMap.mp hlib
  exact e.names lib (List.mem_of_mem_drop hmem)

/-- A scope that ends without an error added just the modules of an output of its
entries. -/
theorem ensures_allmuxBody (es : List (MuxEntry γ)) :
    Ensures (Adds start []) (allmuxBody bitcode noInternalize es) fun _ out =>
      ∃ mux : MuxOutput γ, mux.Of bitcode noInternalize es ∧
        Adds start (mux.modules bitcode es) out := by
  apply Ensures.orLeave
  intro cases hcases
  apply Ensures.orLeave
  intro main hmain
  have hadd : Ensures (Adds start []) (addModule .exits main allexeMain allexeMain)
      fun _ => Adds start [⟨allexeMain, main.bytes⟩] :=
    ensures_addEntry .exits main (show allexeMain.length ≤ 0xFFFF by decide)
  refine hadd.bind fun _ => ?_
  refine (ensures_addMains es).bind fun _ => ?_
  intro out _ out' hout hrun
  obtain ⟨mains, hmains, hadds⟩ := hout
  have hnames : ∀ lib ∈ newLibs [] (libraries es), lib.name.length ≤ 0xFFFF :=
    fun lib h => length_name_libraries lib ((newLibs_sublist _ _).subset h)
  obtain ⟨added, hlibs, hrewritten, hadds'⟩ :=
    ensures_addLibs (newLibs [] (libraries es)) hnames out _ out' hadds hrun
  refine ⟨⟨cases, main, mains, added⟩, ⟨hcases, hmain, hmains, hlibs, hrewritten⟩, ?_⟩
  simpa [MuxOutput.modules] using hadds'

/-- Every error of the scope is an exit. -/
theorem leavesOnly_allmuxBody (es : List (MuxEntry γ)) :
    LeavesOnly (· = .exits) (allmuxBody bitcode noInternalize es) := by
  have hmains : ∀ es, LeavesOnly (· = .exits) (addMains bitcode noInternalize es) := by
    intro es
    induction es with
    | nil => exact LeavesOnly.pure ()
    | cons e rest ih =>
        rw [addMains]
        refine (leavesOnly_exitOnErr _).bind fun m => ?_
        exact (leavesOnly_addModule .exits _ _ _).bind fun _ => ih
  have hlibs : ∀ libs, LeavesOnly (· = .exits) (addLibs bitcode libs) := by
    intro libs
    induction libs with
    | nil => exact LeavesOnly.pure ()
    | cons lib rest ih =>
        rw [addLibs]
        refine (leavesOnly_exitOnErr _).bind fun m => ?_
        exact (leavesOnly_addModule .exits _ _ _).bind fun _ => ih
  refine (leavesOnly_exitOnErr _).bind fun cases => ?_
  refine (leavesOnly_exitOnErr _).bind fun main => ?_
  refine (leavesOnly_addModule .exits _ _ _).bind fun _ => ?_
  exact (hmains es).bind fun _ => hlibs _

end Scope

end Allmux
end AllvmTools
