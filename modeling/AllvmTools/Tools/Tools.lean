import AllvmTools.Allmux.Allmux

/-!
# The tools that write allexes

`bc2allvm`, `alltogether`, `allopt`, `wllvm-extract` and `allmux`, from the
opening of their output on.  What goes on before is kept as far as it decides
whether they get there.

* `Tool.ensures_body` — a scope that ends without an error added the main module
  first.
* `Tool.leavesOnly_body` — all tools but `wllvm-extract` exit on an error.
-/

namespace AllvmTools
namespace Tools

open Library Library.Files Library.Leaving Library.Leaving.Program Archive Allmux

/-- What the tools do to a module before it is written. -/
structure Passes (γ : Type) where
  /-- `getALLVMSources` is not empty. -/
  hasSource : IRModule γ → Bool
  setSource : Text → IRModule γ → IRModule γ
  deInlineAsm : IRModule γ → IRModule γ
  stripDebug : IRModule γ → IRModule γ

variable {γ : Type}

/-! ## `bc2allvm` -/

/-- An input of `bc2allvm`: `make_absolute` and `parseIRFile` may fail. -/
structure SourceFile (γ : Type) where
  path : OpenedPath
  absolute : Option Text
  parsed : Option (IRModule γ)

/-- The identifier of the parsed module: `-` is the standard input. -/
def SourceFile.identifier (file : SourceFile γ) : Text :=
  if file.path.text = ascii "-" then ascii "<stdin>" else file.path.text

structure Bc2allvm (γ : Type) where
  mainFile : SourceFile γ
  inputFiles : List (SourceFile γ)
  forceOutput : Bool
  preserveAsm : Bool

namespace Bc2allvm

/-- The check of the first module: a function `main` with a body. -/
def definesMain (m : IRModule γ) : Bool :=
  match m.symbols mainText with
  | none => false
  | some g =>
      match g.content with
      | .function _ _ => !g.isDeclaration
      | _ => false

/-- The lambda `addModule`. -/
def addFile (bitcode : Bitcode γ) (passes : Passes γ) (t : Bc2allvm γ) (file : SourceFile γ)
    (isMain : Bool) : Scope Unit := do
  let _ ← exitOnErr file.absolute
  let m ← exitOnErr file.parsed
  let _ ← exitOnErr (if isMain && !definesMain m then none else some ())
  let m := if passes.hasSource m then m else passes.setSource file.path.text m
  let m := if t.preserveAsm then m else passes.deInlineAsm m
  addModule .exits (bitcode.write m) file.identifier (if isMain then allexeMain else [])

/-- The loop over the further inputs. -/
def addFiles (bitcode : Bitcode γ) (passes : Passes γ) (t : Bc2allvm γ) :
    List (SourceFile γ) → Scope Unit
  | [] => pure ()
  | file :: rest => do
      addFile bitcode passes t file false
      addFiles bitcode passes t rest

def toRun (bitcode : Bitcode γ) (passes : Passes γ) (t : Bc2allvm γ) : ToolRun where
  refuses file := file.isSome && !t.forceOutput
  overwrite := t.forceOutput
  body := do
    addFile bitcode passes t t.mainFile true
    addFiles bitcode passes t t.inputFiles
  status _ := 0

end Bc2allvm

/-! ## The other tools -/

/-- `alltogether`: `merged` when there is a merged module in the temporary file. -/
structure Alltogether where
  merged : Bool
  overwrite : Bool
  tempBCPath : Text
  tempBC : Option Buffer

def Alltogether.toRun (t : Alltogether) : ToolRun where
  refuses _ := !t.merged
  overwrite := t.overwrite
  body := addFile .exits t.tempBC t.tempBCPath allexeMain
  status _ := 0

/-- `allopt`: `piped` when the pipeline was run.  Writing to the standard output
goes through a temporary allexe that is read back. -/
structure Allopt where
  piped : Bool
  forceOutput : Bool
  toStdout : Bool
  tempOutPath : Text
  tempOut : Option Buffer

def Allopt.toRun (t : Allopt) : ToolRun where
  refuses _ := !t.piped
  overwrite := t.forceOutput
  body := addFile .exits t.tempOut t.tempOutPath allexeMain
  status file := if t.toStdout && file.isNone then 1 else 0

/-- `wllvm-extract` with the allexe output kind; `composite` is the result of
`getLinkedModule`. -/
structure WllvmExtract (γ : Type) where
  composite : Option (IRModule γ)
  forceOutput : Bool
  stripDebug : Bool
  preserveAsm : Bool

/-- `writeAsAllexe` returns its errors. -/
def WllvmExtract.toRun (bitcode : Bitcode γ) (passes : Passes γ) (t : WllvmExtract γ) :
    ToolRun where
  refuses _ := false
  overwrite := t.forceOutput
  body := do
    let m ← returnErr t.composite
    let m := if t.stripDebug then passes.stripDebug m else m
    let m := if t.preserveAsm then m else passes.deInlineAsm m
    addModule .returns (bitcode.write m) [] allexeMain
  status _ := 0

structure AllmuxRun where
  inputs : List Input
  forceOutput : Bool
  noInternalize : Bool

def AllmuxRun.toRun (bitcode : Bitcode γ) (t : AllmuxRun) : ToolRun where
  refuses _ := (readEntries bitcode [] t.inputs).isNone
  overwrite := t.forceOutput
  body := do
    let es ← exitOnErr (readEntries bitcode [] t.inputs)
    allmuxBody bitcode t.noInternalize es
  status _ := 0

inductive Tool (γ : Type) where
  | bc2allvm (t : Bc2allvm γ)
  | alltogether (t : Alltogether)
  | allopt (t : Allopt)
  | wllvmExtract (t : WllvmExtract γ)
  | allmux (t : AllmuxRun)

def Tool.toRun (bitcode : Bitcode γ) (passes : Passes γ) : Tool γ → ToolRun
  | .bc2allvm t => t.toRun bitcode passes
  | .alltogether t => t.toRun
  | .allopt t => t.toRun
  | .wllvmExtract t => t.toRun bitcode passes
  | .allmux t => t.toRun bitcode

/-! ## What the tools add -/

section Bodies

variable {bitcode : Bitcode γ} {passes : Passes γ} {start : ZipArchive}

/-- Something was added, and `main.bc` first. -/
def AddsMain (start : ZipArchive) (out : Output) : Prop :=
  ∃ main rest, main.name = allexeMain ∧ Adds start (main :: rest) out

theorem SourceFile.length_identifier (file : SourceFile γ) :
    file.identifier.length ≤ 0xFFFF := by
  have hshort := file.path.short
  unfold SourceFile.identifier
  split
  · decide
  · omega

theorem Bc2allvm.ensures_addFile (t : Bc2allvm γ) (file : SourceFile γ) (isMain : Bool)
    {modules : List Archive.Module} :
    Ensures (Adds start modules) (Bc2allvm.addFile bitcode passes t file isMain) fun _ out =>
      ∃ m, (isMain = true → m.name = allexeMain) ∧ Adds start (modules ++ [m]) out := by
  apply Ensures.orLeave
  intro _ _
  apply Ensures.orLeave
  intro m _
  apply Ensures.orLeave
  intro _ _ out _ out' hout hrun
  cases isMain with
  | true =>
      exact ⟨_, fun _ => rfl, ensures_addEntry .exits _
        (show allexeMain.length ≤ 0xFFFF by decide) out _ out' hout hrun⟩
  | false =>
      exact ⟨_, fun h => (Bool.noConfusion h), ensures_addEntry .exits _
        file.length_identifier out _ out' hout hrun⟩

theorem Bc2allvm.ensures_addFiles (t : Bc2allvm γ) (files : List (SourceFile γ)) :
    Ensures (AddsMain start) (Bc2allvm.addFiles bitcode passes t files) fun _ =>
      AddsMain start := by
  induction files with
  | nil => exact Ensures.pure fun _ h => h
  | cons file rest ih =>
      rw [Bc2allvm.addFiles]
      refine Ensures.bind ?_ fun _ => ih
      rintro out _ out' ⟨main, added, hname, hadds⟩ hrun
      obtain ⟨m, -, hadds'⟩ := Bc2allvm.ensures_addFile t file false out _ out' hadds hrun
      exact ⟨main, added ++ [m], hname, hadds'⟩

theorem ensures_addFile_main (leave : Leave) (file : Option Buffer) (filename : Text) :
    Ensures (Adds start []) (addFile leave file filename allexeMain) fun _ => AddsMain start := by
  intro out _ out' hout hrun
  obtain ⟨buf, -, hadds⟩ := ensures_addFile leave file (show allexeMain ≠ [] by decide)
    (show allexeMain.length ≤ 0xFFFF by decide) out _ out' hout hrun
  exact ⟨_, [], rfl, hadds⟩

/-- Every tool adds the main module first. -/
theorem Tool.ensures_body (tool : Tool γ) :
    Ensures (Adds start []) (tool.toRun bitcode passes).body fun _ => AddsMain start := by
  cases tool with
  | bc2allvm t =>
      refine Ensures.bind ?_ fun _ => t.ensures_addFiles t.inputFiles
      intro out _ out' hout hrun
      obtain ⟨m, hname, hadds⟩ := t.ensures_addFile t.mainFile true out _ out' hout hrun
      exact ⟨m, [], hname rfl, hadds⟩
  | alltogether t => exact ensures_addFile_main .exits t.tempBC t.tempBCPath
  | allopt t => exact ensures_addFile_main .exits t.tempOut t.tempOutPath
  | wllvmExtract t =>
      apply Ensures.orLeave
      intro m _ out _ out' hout hrun
      exact ⟨_, [], rfl, ensures_addEntry .returns _ (show allexeMain.length ≤ 0xFFFF by decide)
        out _ out' hout hrun⟩
  | allmux t =>
      apply Ensures.orLeave
      intro es _ out _ out' hout hrun
      obtain ⟨mux, -, hadds⟩ := ensures_allmuxBody es out _ out' hout hrun
      exact ⟨_, _, rfl, hadds⟩

/-- All tools but `wllvm-extract` leave their scope by an exit. -/
theorem Tool.leavesOnly_body (tool : Tool γ) (htool : ∀ t, tool ≠ .wllvmExtract t) :
    LeavesOnly (· = .exits) (tool.toRun bitcode passes).body := by
  have hfile : ∀ t file isMain,
      LeavesOnly (· = .exits) (Bc2allvm.addFile bitcode passes t file isMain) := by
    intro t file isMain
    refine (leavesOnly_exitOnErr _).bind fun _ => ?_
    refine (leavesOnly_exitOnErr _).bind fun m => ?_
    refine (leavesOnly_exitOnErr _).bind fun _ => ?_
    exact leavesOnly_addModule .exits _ _ _
  cases tool with
  | bc2allvm t =>
      have hfiles : ∀ files, LeavesOnly (· = .exits) (Bc2allvm.addFiles bitcode passes t files) := by
        intro files
        induction files with
        | nil => exact LeavesOnly.pure ()
        | cons file rest ih =>
            rw [Bc2allvm.addFiles]
            exact (hfile t file false).bind fun _ => ih
      exact (hfile t t.mainFile true).bind fun _ => hfiles t.inputFiles
  | alltogether t => exact leavesOnly_addFile .exits _ _ _
  | allopt t => exact leavesOnly_addFile .exits _ _ _
  | wllvmExtract t => exact absurd rfl (htool t)
  | allmux t =>
      refine (leavesOnly_exitOnErr _).bind fun es => ?_
      exact leavesOnly_allmuxBody es

end Bodies

end Tools
end AllvmTools
