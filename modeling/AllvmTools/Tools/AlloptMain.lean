import AllvmTools.Archive.Reads
import AllvmTools.Tools.Tools

/-!
# `allopt` from end to end

The bitcode of an allexe with one module goes through a pipeline.  What comes out is
made an allexe again, or is taken as it is with `-analyze`.

* `run_of_writable`, `run_of_refused` — the archive that the pipeline's bitcode is
  added to.
* `alloptMain_eq` — how the process ends, from the outcome of the pipeline.
* `endToEnd_iff` — it ends as it should, just where `Clean` says so.
* `analysis_is_removed` — the output of an analysis, in a file.
-/

namespace AllvmTools
namespace Tools

open Library Library.Text Library.Files Library.Leaving Library.Leaving.Program Archive Allmux

variable {γ : Type}

/-! ## The parts of `main` -/

/-- The command line; `-` is the standard input or output. -/
structure AlloptArgs where
  inputFilename : Text
  outputFilename : Text
  forceOutput : Bool
  analyzeOnly : Bool
deriving DecidableEq, Repr

/-- What becomes of the pipeline: it is not found, or `ExecuteAndWait` returns, and
its standard output is in a file then. -/
inductive PipelineRun where
  | notFound
  | waited (ret : Int) (output : Buffer)
deriving DecidableEq, Repr

/-- How `tool_output_file` finds its path.  The path is registered for removal before
it is opened, so what stays there after a failure is for the handlers of an exit. -/
inductive OutputOpen where
  | opened
  | refused (left : Option Bytes)
deriving DecidableEq, Repr

/-- What `main` meets.  The allexes are what `Allexe::openForReading` finds in the
standard input and in the file at the input path. -/
structure AlloptSystem where
  /-- The three temporary files can be created. -/
  tempFiles : Bool
  standardOutIsDisplayed : Bool
  stdin : Option (Allexe Bytes)
  inputFile : Option (Allexe Bytes)
  tempOutPath : Text
  pipeline : Bytes → PipelineRun
  outputOpen : OutputOpen
  /-- The steps of the deferred write. -/
  write : Env

/-- The end of the process: its exit status, the file at the output path, and what
went to the standard output. -/
structure AlloptEnd where
  status : Nat
  file : Option Bytes
  stdout : Bytes
deriving DecidableEq, Repr

def AlloptArgs.toStdout (args : AlloptArgs) : Bool :=
  decide (args.outputFilename = ascii "-")

/-- It refuses to scribble to a display. -/
def refusesDisplay (args : AlloptArgs) (displayed : Bool) : Bool :=
  args.toStdout && !args.forceOutput && !args.analyzeOnly && displayed

/-- What the block of the input puts into `TempIn`; `none` is an error exit. -/
def fillTempIn (bitcode : Bitcode γ) (args : AlloptArgs) (system : AlloptSystem) :
    Option Bytes :=
  match if args.inputFilename = ascii "-" then system.stdin else system.inputFile with
  | none => none
  | some exe =>
      if exe.getNumModules ≠ 1 then none
      else
        match exe.entries with
        | [] => none
        | entry :: _ =>
            match bitcode.read entry.contents with
            | none => none
            | some m => if m.materializes then some (bitcode.write m).bytes else none

/-- `runPipeline`: what it leaves in `TempOut`; `none` is an error exit. -/
def runPipeline (pipeline : Bytes → PipelineRun) (tempIn : Bytes) : Option Buffer :=
  match pipeline tempIn with
  | .notFound => none
  | .waited ret output => if ret < 0 then none else some output

/-- Writing the new allexe.  For the standard output it is made in `TempExe`, which
`ExeLocalRemover` has removed, and read back. -/
def writeAllexe (codec : Codec) (parse : Bytes → Option (List Dirent)) (alleyPath : Text)
    (args : AlloptArgs) (system : AlloptSystem) (file : Option Bytes) (tempOut : Buffer) :
    AlloptEnd :=
  let tool : Allopt :=
    ⟨true, args.forceOutput, args.toStdout, system.tempOutPath, some tempOut⟩
  if args.toStdout then
    let (status, tempExe) := tool.toRun.run codec parse alleyPath system.write none
    ⟨status, file, if status = 0 then tempExe.getD [] else []⟩
  else
    let (status, written) := tool.toRun.run codec parse alleyPath system.write file
    ⟨status, written, []⟩

/-- `~tool_output_file`. -/
def closeOutputFile (keep : Bool) (written : Bytes) : Option Bytes :=
  if keep then some written else none

/-- Writing what the pipeline wrote.  Nothing calls `keep()`. -/
def writeAnalysis (args : AlloptArgs) (system : AlloptSystem) (file : Option Bytes)
    (tempOut : Buffer) : AlloptEnd :=
  if args.toStdout then
    ⟨0, file, tempOut.bytes⟩
  else
    match system.outputOpen with
    | .refused left => ⟨1, left, []⟩
    | .opened => ⟨0, closeOutputFile false tempOut.bytes, []⟩

/-- `main`; `file` is there at the output path before. -/
def alloptMain (bitcode : Bitcode γ) (codec : Codec) (parse : Bytes → Option (List Dirent))
    (alleyPath : Text) (args : AlloptArgs) (system : AlloptSystem) (file : Option Bytes) :
    AlloptEnd :=
  if !system.tempFiles then
    ⟨1, file, []⟩
  else if refusesDisplay args system.standardOutIsDisplayed then
    ⟨1, file, []⟩
  else
    match fillTempIn bitcode args system with
    | none => ⟨1, file, []⟩
    | some tempIn =>
        match runPipeline system.pipeline tempIn with
        | none => ⟨1, file, []⟩
        | some tempOut =>
            if !args.analyzeOnly then
              writeAllexe codec parse alleyPath args system file tempOut
            else
              writeAnalysis args system file tempOut

/-! ## The property -/

/-- What becomes of the pipeline, if it is run at all. -/
def outcome (bitcode : Bitcode γ) (args : AlloptArgs) (system : AlloptSystem) :
    Option PipelineRun :=
  if !system.tempFiles || refusesDisplay args system.standardOutIsDisplayed then none
  else (fillTempIn bitcode args system).map system.pipeline

/-- `-f` was given, or nothing is there but an archive without entries; `TempExe` is
written for the standard output. -/
def MayWrite (parse : Bytes → Option (List Dirent)) (args : AlloptArgs) (file : Option Bytes) :
    Prop :=
  ∃ za, zipOpen parse (if args.toStdout then none else file) args.forceOutput = some za ∧
    za.entries = []

/-- The module that is written. -/
def mainModuleOf (output : Buffer) : Archive.Module :=
  ⟨allexeMain, output.bytes⟩

/-- No step of the deferred write fails. -/
def Written (codec : Codec) (write : Env) (output : Buffer) : Prop :=
  ∀ i < draftOps codec [mainModuleOf output] + 2, write.fails i = false

/-- The deferred write leaves what was there: a step before its `fclose` fails, or the
rename behind it. -/
def Lost (codec : Codec) (write : Env) (output : Buffer) : Prop :=
  (∃ i < draftOps codec [mainModuleOf output], write.fails i = true) ∨
    write.fails (draftOps codec [mainModuleOf output] + 1) = true

instance (codec : Codec) (write : Env) (output : Buffer) : Decidable (Lost codec write output) :=
  inferInstanceAs (Decidable ((∃ i < _, write.fails i = true) ∨ _))

/-- What the deferred write leaves of `old`, when `archive` is to be written. -/
def afterWrite (codec : Codec) (write : Env) (output : Buffer) (archive : Bytes)
    (old : Option Bytes) : Option Bytes :=
  if Lost codec write output then old
  else if write.fails (draftOps codec [mainModuleOf output]) = true then some write.left
  else some archive

section Property

variable (bitcode : Bitcode γ) (codec : Codec) (parse : Bytes → Option (List Dirent))
  (alleyPath : Text) (args : AlloptArgs) (system : AlloptSystem) (file : Option Bytes)

/-- The pipeline exited with status zero, and without `-analyze` its output is bitcode
and the destination may be, and can be, written. -/
def Succeeds (output : Buffer) : Prop :=
  outcome bitcode args system = some (.waited 0 output) ∧
    (args.analyzeOnly = false → isBitcode output.bytes = true ∧ MayWrite parse args file ∧
      Written codec system.write output)

/-- The destination has what it should have of this output. -/
def HasOutput (output : Buffer) (destination : Option Bytes) : Prop :=
  if args.analyzeOnly then destination = some output.bytes
  else Archived codec [mainModuleOf output] destination

structure EndToEnd : Prop where
  status : (alloptMain bitcode codec parse alleyPath args system file).status = 0 ↔
    ∃ output, Succeeds bitcode codec parse args system file output
  output : ∀ output, Succeeds bitcode codec parse args system file output →
    HasOutput codec args output
      (if args.toStdout then some (alloptMain bitcode codec parse alleyPath args system file).stdout
        else (alloptMain bitcode codec parse alleyPath args system file).file)
  kept : (¬ ∃ output, Succeeds bitcode codec parse args system file output) →
    ∀ old, file = some old →
      (alloptMain bitcode codec parse alleyPath args system file).file = some old

/-- A pipeline that ends by itself and whose output counts exits with status zero, the
write succeeds, and an analysis goes to the standard output.  A lost write is noticed
where the archive is read back, and so is a file that cannot be opened. -/
def Clean : Prop :=
  ∀ ret output, outcome bitcode args system = some (.waited ret output) → 0 ≤ ret →
    if args.analyzeOnly then
      if args.toStdout then ret = 0
      else ret ≠ 0 ∧ ∃ left, system.outputOpen = .refused left ∧ ∀ old, file = some old → left = some old
    else
      isBitcode output.bytes = true → MayWrite parse args file →
        ret = 0 ∧ Written codec system.write output ∨
          args.toStdout = true ∧ Lost codec system.write output

end Property

/-! ## The new allexe -/

section Run

variable {codec : Codec} {parse : Bytes → Option (List Dirent)} {alleyPath : Text} {tool : Allopt}
  {output : Buffer} {write : Env} {file : Option Bytes}

/-- An archive without entries is like a new one. -/
theorem openAllexe_of_empty {overwrite : Bool} {za : Zip}
    (hza : zipOpen parse file overwrite = some za) (hentries : za.entries = []) :
    openAllexe parse alleyPath file overwrite = some (.fresh overwrite alleyPath) := by
  have hempty : za = .allocateNew overwrite := by
    rcases zipOpen_cases hza with rfl | ⟨rfl, bytes, dirents, -, -, -, rfl⟩
    · rfl
    · have hdirents : dirents = [] := List.map_eq_nil_iff.mp hentries
      subst hdirents
      rfl
  unfold openAllexe ZipArchive.openZip
  rw [hza, hempty]
  rfl

theorem addFile_main (buf : Buffer) (filename : Text) :
    addFile .exits (some buf) filename allexeMain =
      if isBitcode buf.bytes then addEntry .exits buf allexeMain else Program.leave .exits :=
  rfl

/-- The bitcode is taken by an archive without entries, and written as far as the
steps of the write go. -/
theorem run_of_writable (hcodec : codec.Lawful) (hpiped : tool.piped = true)
    (houtput : tool.tempOut = some output) (hbitcode : isBitcode output.bytes = true)
    (hopen : openAllexe parse alleyPath file tool.forceOutput =
      some (.fresh tool.forceOutput alleyPath)) :
    ∃ archive, Archived codec [mainModuleOf output] (some archive) ∧
      ∀ write, tool.toRun.run codec parse alleyPath write file =
        (tool.toRun.status (afterWrite codec write output archive file),
          afterWrite codec write output archive file) := by
  obtain ⟨zip, hadd⟩ := addEntry_main_fresh tool.forceOutput alleyPath output
  have hbody : tool.toRun.body ⟨.fresh tool.forceOutput alleyPath, []⟩ =
      (.ok (), ⟨zip, [mainModuleOf output]⟩) := by
    show addFile .exits tool.tempOut tool.tempOutPath allexeMain _ = _
    rw [houtput, addFile_main, if_pos hbitcode]
    unfold addEntry
    simp only [hadd]
    rfl
  have hopens : tool.toRun.Opens parse alleyPath file (.fresh tool.forceOutput alleyPath) :=
    ⟨by simp [Allopt.toRun, hpiped], hopen⟩
  obtain ⟨m, rest, hname, hadds⟩ :=
    ensures_addFile_main .exits tool.tempOut tool.tempOutPath _ _ _ (.start _) hbody
  have hmodules : m :: rest = [mainModuleOf output] := hadds.added.symm
  rw [hmodules] at hadds
  obtain ⟨archive, harchived, hfile⟩ := ToolRun.destroy_of_adds hcodec hopen hadds
    (List.cons_ne_nil _ _) (by rintro _ ⟨⟩; rfl)
  refine ⟨archive, harchived, ?_⟩
  intro write
  rw [ToolRun.run_of_ok hopens hbody]
  rw [show ToolRun.destroy codec write file zip = afterWrite codec write output archive file from
    hfile write]

/-- Other output, and another destination, is refused. -/
theorem run_of_refused (hpiped : tool.piped = true) (houtput : tool.tempOut = some output)
    (hrefused : isBitcode output.bytes = true →
      ¬ ∃ za, zipOpen parse file tool.forceOutput = some za ∧ za.entries = []) :
    tool.toRun.run codec parse alleyPath write file = (1, file) := by
  cases hopen : openAllexe parse alleyPath file tool.forceOutput with
  | none =>
      unfold ToolRun.run
      rw [show tool.toRun.refuses file = false by simp [Allopt.toRun, hpiped]]
      rw [show tool.toRun.overwrite = tool.forceOutput from rfl, hopen]
      rfl
  | some zip =>
      have hopens : tool.toRun.Opens parse alleyPath file zip :=
        ⟨by simp [Allopt.toRun, hpiped], hopen⟩
      have hbody : ∃ out, tool.toRun.body ⟨zip, []⟩ = (.error .exits, out) := by
        show ∃ out, addFile .exits tool.tempOut tool.tempOutPath allexeMain _ = _
        rw [houtput, addFile_main]
        by_cases hbitcode : isBitcode output.bytes = true
        · rw [if_pos hbitcode]
          have hentries : zip.archive.entries ≠ [] := by
            obtain ⟨za, hza, rfl, -⟩ := openAllexe_eq_some hopen
            exact fun h => hrefused hbitcode ⟨za, hza, h⟩
          have hkeeps : tool.forceOutput = false := by
            rcases openAllexe_cases hopen with rfl | ⟨h, -⟩
            · exact absurd rfl hentries
            · exact h
          rw [hkeeps] at hopen
          have hadd := (addModule_refused hopen hentries (some output)).1
          rw [ZipArchive.addModule, apply_addEntry (by decide)] at hadd
          unfold addEntry
          split
          · next htaken =>
              rw [htaken] at hadd
              cases hadd
          · exact ⟨_, rfl⟩
        · rw [if_neg hbitcode]
          exact ⟨_, rfl⟩
      obtain ⟨out, hbody⟩ := hbody
      rw [ToolRun.run_of_error hopens hbody]
      rfl

/-- The steps of the write all succeed, or it is lost, or only the `fclose` fails. -/
theorem written_iff : Written codec write output ↔
    ¬ Lost codec write output ∧ write.fails (draftOps codec [mainModuleOf output]) = false := by
  unfold Written Lost
  constructor
  · intro h
    refine ⟨?_, h _ (by omega)⟩
    rintro (⟨i, hi, hfails⟩ | hfails)
    · rw [h i (by omega)] at hfails
      cases hfails
    · rw [h _ (by omega)] at hfails
      cases hfails
  · rintro ⟨hlost, hflush⟩ i hi
    by_contra hfails
    rw [Bool.not_eq_false] at hfails
    rcases Nat.lt_trichotomy i (draftOps codec [mainModuleOf output]) with hlt | rfl | hgt
    · exact hlost (Or.inl ⟨i, hlt, hfails⟩)
    · rw [hflush] at hfails
      cases hfails
    · obtain rfl : i = draftOps codec [mainModuleOf output] + 1 := by omega
      exact hlost (Or.inr hfails)

/-- The three ends of the write. -/
theorem afterWrite_cases (codec : Codec) (write : Env) (output : Buffer) (archive : Bytes) :
    (Lost codec write output ∧ ¬ Written codec write output ∧
        ∀ old, afterWrite codec write output archive old = old) ∨
      (¬ Lost codec write output ∧ ¬ Written codec write output ∧
        ∀ old, afterWrite codec write output archive old = some write.left) ∨
      (Written codec write output ∧
        ∀ old, afterWrite codec write output archive old = some archive) := by
  unfold afterWrite
  by_cases hlost : Lost codec write output
  · exact Or.inl ⟨hlost, fun h => (written_iff.mp h).1 hlost, fun old => if_pos hlost⟩
  · cases hflush : write.fails (draftOps codec [mainModuleOf output]) with
    | true =>
        have hwritten : ¬ Written codec write output := by
          rw [written_iff, hflush]
          simp
        exact Or.inr (Or.inl ⟨hlost, hwritten, fun old => by rw [if_neg hlost, if_pos rfl]⟩)
    | false =>
        exact Or.inr (Or.inr ⟨written_iff.mpr ⟨hlost, hflush⟩,
          fun old => by rw [if_neg hlost, if_neg (by decide)]⟩)

end Run

/-! ## The end of the process -/

section Main

variable {bitcode : Bitcode γ} {codec : Codec} {parse : Bytes → Option (List Dirent)}
  {alleyPath : Text} {args : AlloptArgs} {system : AlloptSystem} {file : Option Bytes}

/-- The process ends by what becomes of the pipeline. -/
theorem alloptMain_eq : alloptMain bitcode codec parse alleyPath args system file =
    match outcome bitcode args system with
    | some (.waited ret output) =>
        if ret < 0 then ⟨1, file, []⟩
        else if args.analyzeOnly then writeAnalysis args system file output
        else writeAllexe codec parse alleyPath args system file output
    | _ => ⟨1, file, []⟩ := by
  unfold alloptMain outcome
  cases system.tempFiles with
  | false => rfl
  | true =>
      cases refusesDisplay args system.standardOutIsDisplayed with
      | true => rfl
      | false =>
          simp only [Bool.not_true, Bool.false_eq_true, if_false, Bool.or_self]
          cases fillTempIn bitcode args system with
          | none => rfl
          | some tempIn =>
              simp only [Option.map_some]
              unfold runPipeline
              cases system.pipeline tempIn with
              | notFound => rfl
              | waited ret output =>
                  by_cases hret : ret < 0
                  · simp only [hret, if_true]
                  · simp only [hret, if_false]
                    cases args.analyzeOnly with
                    | false => rfl
                    | true => rfl

theorem alloptMain_of_waited {ret : Int} {output : Buffer}
    (houtcome : outcome bitcode args system = some (.waited ret output)) (hret : 0 ≤ ret) :
    alloptMain bitcode codec parse alleyPath args system file =
      if args.analyzeOnly then writeAnalysis args system file output
      else writeAllexe codec parse alleyPath args system file output := by
  rw [alloptMain_eq, houtcome]
  exact if_neg (Int.not_lt.mpr hret)

/-- Nothing counts as a success where the pipeline does not end by itself. -/
theorem endToEnd_of_unfinished
    (hend : alloptMain bitcode codec parse alleyPath args system file = ⟨1, file, []⟩)
    (hnone : ¬ ∃ output, Succeeds bitcode codec parse args system file output) :
    EndToEnd bitcode codec parse alleyPath args system file := by
  refine ⟨?_, fun output h => absurd ⟨output, h⟩ hnone, ?_⟩
  · rw [hend]
    exact iff_of_false Nat.one_ne_zero hnone
  · intro _ old hold
    rw [hend]
    exact hold

/-- The output that counts is that of the pipeline. -/
theorem Succeeds.output_eq {ret : Int} {output output' : Buffer}
    (houtcome : outcome bitcode args system = some (.waited ret output))
    (h : Succeeds bitcode codec parse args system file output') : ret = 0 ∧ output' = output := by
  have hsame := houtcome.symm.trans h.1
  cases hsame
  exact ⟨rfl, rfl⟩

/-- The property, once the pipeline ended by itself and `main` ended like this. -/
theorem endToEnd_iff_of_waited {ret : Int} {output : Buffer} {ended : AlloptEnd}
    (houtcome : outcome bitcode args system = some (.waited ret output))
    (hend : alloptMain bitcode codec parse alleyPath args system file = ended) :
    EndToEnd bitcode codec parse alleyPath args system file ↔
      (Succeeds bitcode codec parse args system file output → ended.status = 0 ∧
        HasOutput codec args output (if args.toStdout then some ended.stdout else ended.file)) ∧
      (¬ Succeeds bitcode codec parse args system file output → ended.status ≠ 0 ∧
        ∀ old, file = some old → ended.file = some old) := by
  have hexists : (∃ output', Succeeds bitcode codec parse args system file output') ↔
      Succeeds bitcode codec parse args system file output := by
    constructor
    · rintro ⟨output', h⟩
      obtain ⟨-, rfl⟩ := h.output_eq houtcome
      exact h
    · exact fun h => ⟨output, h⟩
  constructor
  · rintro ⟨hstatus, houtput, hkept⟩
    rw [hend] at hstatus houtput hkept
    rw [hexists] at hstatus hkept
    exact ⟨fun h => ⟨hstatus.mpr h, houtput output h⟩,
      fun h => ⟨fun h0 => h (hstatus.mp h0), hkept h⟩⟩
  · rintro ⟨hdone, hundone⟩
    refine ⟨?_, ?_, ?_⟩
    · rw [hend, hexists]
      constructor
      · intro h0
        by_contra h
        exact (hundone h).1 h0
      · exact fun h => (hdone h).1
    · intro output' h
      obtain ⟨-, rfl⟩ := h.output_eq houtcome
      rw [hend]
      exact (hdone h).2
    · intro h
      rw [hend]
      exact (hundone (mt hexists.mpr h)).2

/-- An analysis. -/
theorem endToEnd_iff_of_analysis {ret : Int} {output : Buffer} (hanalyze : args.analyzeOnly = true)
    (houtcome : outcome bitcode args system = some (.waited ret output)) (hret : 0 ≤ ret) :
    EndToEnd bitcode codec parse alleyPath args system file ↔
      if args.toStdout then ret = 0
      else ret ≠ 0 ∧ ∃ left, system.outputOpen = .refused left ∧
        ∀ old, file = some old → left = some old := by
  have hend : alloptMain bitcode codec parse alleyPath args system file =
      writeAnalysis args system file output := by
    rw [alloptMain_of_waited houtcome hret, if_pos hanalyze]
  have hsucceeds : Succeeds bitcode codec parse args system file output ↔ ret = 0 := by
    unfold Succeeds
    rw [houtcome, hanalyze]
    simp
  rw [endToEnd_iff_of_waited houtcome hend, hsucceeds]
  unfold writeAnalysis HasOutput
  rw [if_pos hanalyze]
  cases args.toStdout with
  | true => simp
  | false =>
      cases system.outputOpen with
      | opened =>
          -- the file is not kept
          simp [closeOutputFile]
      | refused left => simp +contextual

/-- The end of a process that writes an allexe. -/
theorem writeAllexe_of_refused {output : Buffer}
    (hrefused : isBitcode output.bytes = true → ¬ MayWrite parse args file) :
    writeAllexe codec parse alleyPath args system file output = ⟨1, file, []⟩ := by
  unfold writeAllexe
  unfold MayWrite at hrefused
  cases hstdout : args.toStdout with
  | true =>
      rw [hstdout] at hrefused
      have hrun := @run_of_refused codec parse alleyPath
        ⟨true, args.forceOutput, true, system.tempOutPath, some output⟩ output system.write none
        rfl rfl hrefused
      simp only [if_true, hrun]
      rfl
  | false =>
      rw [hstdout] at hrefused
      have hrun := @run_of_refused codec parse alleyPath
        ⟨true, args.forceOutput, false, system.tempOutPath, some output⟩ output system.write file
        rfl rfl hrefused
      simp only [Bool.false_eq_true, if_false, hrun]

theorem writeAllexe_of_writable {output : Buffer} (hcodec : codec.Lawful)
    (hbitcode : isBitcode output.bytes = true) (hmay : MayWrite parse args file) :
    ∃ archive, Archived codec [mainModuleOf output] (some archive) ∧
      writeAllexe codec parse alleyPath args system file output =
        if args.toStdout then
          match afterWrite codec system.write output archive none with
          | none => ⟨1, file, []⟩
          | some bytes => ⟨0, file, bytes⟩
        else
          ⟨0, afterWrite codec system.write output archive file, []⟩ := by
  obtain ⟨za, hza, hentries⟩ := hmay
  have hopen := @openAllexe_of_empty parse alleyPath _ _ za hza hentries
  unfold writeAllexe
  cases hstdout : args.toStdout with
  | true =>
      rw [hstdout] at hopen
      obtain ⟨archive, harchived, hrun⟩ := @run_of_writable codec parse alleyPath
        ⟨true, args.forceOutput, true, system.tempOutPath, some output⟩ output none hcodec rfl rfl
        hbitcode hopen
      refine ⟨archive, harchived, ?_⟩
      simp only [if_true, hrun]
      cases afterWrite codec system.write output archive none with
      | none => rfl
      | some bytes => rfl
  | false =>
      rw [hstdout] at hopen
      obtain ⟨archive, harchived, hrun⟩ := @run_of_writable codec parse alleyPath
        ⟨true, args.forceOutput, false, system.tempOutPath, some output⟩ output file hcodec rfl rfl
        hbitcode hopen
      refine ⟨archive, harchived, ?_⟩
      simp only [Bool.false_eq_true, if_false, hrun]
      rfl

/-- A new allexe. -/
theorem endToEnd_iff_of_allexe {ret : Int} {output : Buffer} (hcodec : codec.Lawful)
    (hanalyze : args.analyzeOnly = false)
    (houtcome : outcome bitcode args system = some (.waited ret output)) (hret : 0 ≤ ret) :
    EndToEnd bitcode codec parse alleyPath args system file ↔
      (isBitcode output.bytes = true → MayWrite parse args file →
        ret = 0 ∧ Written codec system.write output ∨
          args.toStdout = true ∧ Lost codec system.write output) := by
  have hend : alloptMain bitcode codec parse alleyPath args system file =
      writeAllexe codec parse alleyPath args system file output := by
    rw [alloptMain_of_waited houtcome hret, hanalyze]
    rfl
  have hsucceeds : Succeeds bitcode codec parse args system file output ↔
      ret = 0 ∧ isBitcode output.bytes = true ∧ MayWrite parse args file ∧
        Written codec system.write output := by
    unfold Succeeds
    rw [houtcome, hanalyze]
    simp
  rw [endToEnd_iff_of_waited houtcome hend, hsucceeds]
  by_cases hwritable : isBitcode output.bytes = true ∧ MayWrite parse args file
  · obtain ⟨hbitcode, hmay⟩ := hwritable
    obtain ⟨archive, harchived, hwrite⟩ := @writeAllexe_of_writable codec parse alleyPath args
      system file output hcodec hbitcode hmay
    rw [hwrite]
    unfold HasOutput
    simp only [hanalyze, Bool.false_eq_true, if_false, hbitcode, hmay, true_and, forall_const]
    rcases afterWrite_cases codec system.write output archive with
      ⟨hlost, hwritten, hafter⟩ | ⟨hlost, hwritten, hafter⟩ | ⟨hwritten, hafter⟩
    · -- the archive is not there to be read back
      simp only [hafter]
      cases args.toStdout with
      | true => simp [hwritten, hlost]
      | false => simp [hwritten]
    · simp only [hafter]
      cases args.toStdout with
      | true => simp [hwritten, hlost]
      | false => simp [hwritten]
    · have hlost : ¬ Lost codec system.write output := (written_iff.mp hwritten).1
      simp only [hafter]
      cases args.toStdout with
      | true => simp [hwritten, hlost, harchived]
      | false => simp [hwritten, harchived]
  · have hrefused : isBitcode output.bytes = true → ¬ MayWrite parse args file :=
      fun hbitcode hmay => hwritable ⟨hbitcode, hmay⟩
    rw [writeAllexe_of_refused hrefused]
    constructor
    · exact fun _ hbitcode hmay => absurd hmay (hrefused hbitcode)
    · intro _
      refine ⟨?_, fun _ => ⟨Nat.one_ne_zero, fun old hold => hold⟩⟩
      rintro ⟨-, hbitcode, hmay, -⟩
      exact absurd hmay (hrefused hbitcode)

/-- **`allopt`**: it ends as it should, for every input, destination, option and outcome
of the pipeline, just where `Clean` says so. -/
theorem endToEnd_iff (hcodec : codec.Lawful) :
    EndToEnd bitcode codec parse alleyPath args system file ↔
      Clean bitcode codec parse args system file := by
  have hnever (hwaited : ∀ ret output, outcome bitcode args system = some (.waited ret output) →
      ret < 0) : EndToEnd bitcode codec parse alleyPath args system file ↔
        Clean bitcode codec parse args system file := by
    apply iff_of_true
    · apply endToEnd_of_unfinished
      · rw [alloptMain_eq]
        split
        · next ret output houtcome => rw [if_pos (hwaited ret output houtcome)]
        · rfl
      · rintro ⟨output, houtcome, -⟩
        exact absurd (hwaited 0 output houtcome) (by decide)
    · intro ret output houtcome hret
      exact absurd (hwaited ret output houtcome) (Int.not_lt.mpr hret)
  by_cases hwaited : ∃ ret output, outcome bitcode args system = some (.waited ret output) ∧ 0 ≤ ret
  · obtain ⟨ret, output, houtcome, hret⟩ := hwaited
    have hclean : Clean bitcode codec parse args system file ↔
        if args.analyzeOnly then
          if args.toStdout then ret = 0
          else ret ≠ 0 ∧ ∃ left, system.outputOpen = .refused left ∧
            ∀ old, file = some old → left = some old
        else
          isBitcode output.bytes = true → MayWrite parse args file →
            ret = 0 ∧ Written codec system.write output ∨
              args.toStdout = true ∧ Lost codec system.write output := by
      constructor
      · exact fun h => h ret output houtcome hret
      · intro h ret' output' houtcome' _
        cases houtcome.symm.trans houtcome'
        exact h
    rw [hclean]
    cases hanalyze : args.analyzeOnly with
    | true => exact endToEnd_iff_of_analysis hanalyze houtcome hret
    | false => exact endToEnd_iff_of_allexe hcodec hanalyze houtcome hret
  · apply hnever
    intro ret output houtcome
    by_contra hret
    exact hwaited ⟨ret, output, houtcome, Int.not_lt.mp hret⟩

end Main

/-! ## A pipeline into a file -/

theorem finite_noSymbols : {_name : Text | (none : Option (Global Unit)).isSome = true}.Finite := by
  apply Set.finite_empty.subset
  rintro _ ⟨⟩

/-- All bitcode is that of an empty module. -/
def emptyBitcode : Bitcode Unit where
  read _ := some
    { symbols := fun _ => none
      finite := finite_noSymbols
      ctors := none
      dtors := none
      materializes := true }
  write _ := ⟨Archive.bitcode, 0, 0⟩
  muxMain _ := none

/-- `allopt -i which -o out`. -/
def toFile (analyzeOnly : Bool) : AlloptArgs :=
  ⟨ascii "which", ascii "out", false, analyzeOnly⟩

/-- The pipeline writes this, and ends with that result; no step fails. -/
def piping (ret : Int) (output : Bytes) : AlloptSystem where
  tempFiles := true
  standardOutIsDisplayed := false
  stdin := none
  inputFile := some ⟨[⟨allexeMain, 0, Archive.bitcode⟩], by rintro _ ⟨⟩; rfl⟩
  tempOutPath := ascii "/tmp/allopt-out.bc"
  pipeline _ := .waited ret ⟨output, 0, 0⟩
  outputOpen := .opened
  write := .calm

theorem outcome_piping (ret : Int) (output : Bytes) (analyzeOnly : Bool) :
    outcome emptyBitcode (toFile analyzeOnly) (piping ret output) =
      some (.waited ret ⟨output, 0, 0⟩) := by
  cases analyzeOnly with
  | false => rfl
  | true => rfl

/-- Bitcode of a pipeline that exits with status zero becomes an allexe. -/
theorem endToEnd_iff_bitcode :
    EndToEnd emptyBitcode storingCodec (fun _ => none) (ascii "/usr/bin/alley") (toFile false)
      (piping 0 Archive.bitcode) none := by
  apply (endToEnd_iff storingCodec_lawful).mpr
  intro ret output houtcome _
  rw [outcome_piping] at houtcome
  cases houtcome
  exact fun _ _ => Or.inl ⟨rfl, fun _ _ => rfl⟩

/-- The file of an analysis is removed, and with it what was there.  A pipeline that
exits with status one is taken for a success. -/
theorem analysis_is_removed :
    alloptMain emptyBitcode storingCodec (fun _ => none) (ascii "/usr/bin/alley") (toFile true)
        (piping 0 (ascii "Hi")) (some (ascii "old")) = ⟨0, none, []⟩ ∧
      ¬ EndToEnd emptyBitcode storingCodec (fun _ => none) (ascii "/usr/bin/alley") (toFile true)
        (piping 0 (ascii "Hi")) (some (ascii "old")) ∧
      (alloptMain emptyBitcode storingCodec (fun _ => none) (ascii "/usr/bin/alley") (toFile false)
        (piping 1 Archive.bitcode) none).status = 0 ∧
      ¬ EndToEnd emptyBitcode storingCodec (fun _ => none) (ascii "/usr/bin/alley") (toFile false)
        (piping 1 Archive.bitcode) none := by
  have hremoved : alloptMain emptyBitcode storingCodec (fun _ => none) (ascii "/usr/bin/alley")
      (toFile true) (piping 0 (ascii "Hi")) (some (ascii "old")) = ⟨0, none, []⟩ := by
    rw [alloptMain_of_waited (outcome_piping 0 _ true) (by decide)]
    rfl
  have haccepted : (alloptMain emptyBitcode storingCodec (fun _ => none) (ascii "/usr/bin/alley")
      (toFile false) (piping 1 Archive.bitcode) none).status = 0 := by
    rw [alloptMain_of_waited (outcome_piping 1 _ false) (by decide)]
    obtain ⟨archive, -, hwrite⟩ := @writeAllexe_of_writable storingCodec (fun _ => none)
      (ascii "/usr/bin/alley") (toFile false) (piping 1 Archive.bitcode) none
      ⟨Archive.bitcode, 0, 0⟩ storingCodec_lawful (by decide) ⟨_, rfl, rfl⟩
    exact (congrArg AlloptEnd.status hwrite).trans rfl
  refine ⟨hremoved, ?_, haccepted, ?_⟩
  · intro h
    have houtput := h.output ⟨ascii "Hi", 0, 0⟩
      ⟨outcome_piping 0 _ true, fun hanalyze => by cases hanalyze⟩
    rw [hremoved] at houtput
    cases houtput
  · intro h
    obtain ⟨output, houtcome, -⟩ := h.status.mp haccepted
    rw [outcome_piping] at houtcome
    cases houtcome

end Tools
end AllvmTools
