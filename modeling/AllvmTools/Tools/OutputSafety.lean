import AllvmTools.Archive.Session
import AllvmTools.Tools.Tools

/-!
# What becomes of the output file

The file at the output path when a tool ends, for every tool, every old file and
every outcome of the deferred write.

* `Tool.savesOutput_iff` — when a tool that reports success has written its output.
* `success_without_output` — a success without a file.
* `Tool.keepsOld_iff` — when a tool that fails keeps the file it was to overwrite.
* `link_error_removes_old` — an error that removes it.
-/

namespace AllvmTools
namespace Tools

open Library Library.Files Library.Leaving Library.Leaving.Program Archive Allmux

variable {γ : Type} {bitcode : Bitcode γ} {passes : Passes γ} {codec : Codec}
  {parse : Bytes → Option (List Dirent)} {alleyPath : Text} {env : Env} {start : ZipArchive}
  {out : Output}

/-! ## Success -/

/-- Where the tool reports success, the file is an archive of exactly the added
modules. -/
def SavesOutput (codec : Codec) (parse : Bytes → Option (List Dirent)) (alleyPath : Text)
    (t : ToolRun) (env : Env) (file : Option Bytes) (added : List Archive.Module) : Prop :=
  (t.run codec parse alleyPath env file).1 = 0 →
    Archived codec added (t.run codec parse alleyPath env file).2

/-- What the deferred write may meet.  `n` is its `fclose` and `n + 1` its rename;
`status` is the exit status the tool makes of the file. -/
def NothingLost (codec : Codec) (status : Option Bytes → Nat) (env : Env) (file : Option Bytes)
    (added : List Archive.Module) : Prop :=
  let n := draftOps codec added
  if (∃ i < n, env.fails i = true) ∨ env.fails (n + 1) = true then
    -- the old file stays, and happens to be what was to be written
    status file ≠ 0 ∨ Archived codec added file
  else
    -- the `fclose` must not fail, unless everything was flushed
    env.fails n = true → status (some env.left) ≠ 0 ∨ Archived codec added (some env.left)

/-- **A tool that reports success has its output written** if and only if no
operation of the deferred write fails, or the file left by the failing ones
already is that output. -/
theorem Tool.savesOutput_iff (hcodec : codec.Lawful) {tool : Tool γ} {file : Option Bytes}
    (hopens : (tool.toRun bitcode passes).Opens parse alleyPath file start)
    (hbody : (tool.toRun bitcode passes).body ⟨start, []⟩ = (.ok (), out)) :
    SavesOutput codec parse alleyPath (tool.toRun bitcode passes) env file out.added ↔
      NothingLost codec (tool.toRun bitcode passes).status env file out.added := by
  obtain ⟨main, rest, hname, hadds⟩ := tool.ensures_body _ _ _ (.start start) hbody
  have hadded := hadds.added
  obtain ⟨archive, harchived, hfile⟩ := ToolRun.destroy_of_adds hcodec hopens.opens hadds
    (List.cons_ne_nil _ _) (by rintro _ ⟨⟩; exact hname)
  unfold SavesOutput NothingLost
  rw [ToolRun.run_of_ok hopens hbody, hfile env, hadded]
  dsimp only
  split
  · rw [imp_iff_not_or]
  · next hquiet =>
      by_cases hflush : env.fails (draftOps codec (main :: rest)) = true
      · rw [if_pos hflush, imp_iff_not_or]
        simp only [hflush, forall_const]
      · rw [if_neg hflush]
        constructor
        · exact fun _ h => absurd h hflush
        · exact fun _ _ => harchived

/-! ### Runs that exist -/

/-- Nothing of LLVM is used. -/
def noBitcode : Bitcode Unit :=
  ⟨fun _ => none, fun _ => ⟨[], 0, 0⟩, fun _ => none⟩

def noPasses : Passes Unit :=
  ⟨fun _ => false, fun _ m => m, id, id⟩

/-- `alltogether` with a merged module of the smallest bitcode. -/
def mergeTool (overwrite : Bool) : Tool Unit :=
  .alltogether ⟨true, overwrite, ascii "/tmp/allvm-merged.bc", some ⟨Archive.bitcode, 0, 0⟩⟩

/-- On a path without a file it opens its output and adds the module. -/
theorem mergeTool_succeeds (parse : Bytes → Option (List Dirent)) (alleyPath : Text) :
    ((mergeTool false).toRun noBitcode noPasses).Opens parse alleyPath none
        (.fresh false alleyPath) ∧
      ∃ zip, ((mergeTool false).toRun noBitcode noPasses).body ⟨.fresh false alleyPath, []⟩ =
        (.ok (), ⟨zip, [⟨allexeMain, Archive.bitcode⟩]⟩) := by
  refine ⟨⟨rfl, openAllexe_fresh parse alleyPath (Or.inr (Or.inl rfl))⟩, ?_⟩
  obtain ⟨zip, hadd⟩ := addEntry_main_fresh false alleyPath ⟨Archive.bitcode, 0, 0⟩
  refine ⟨zip, ?_⟩
  show addEntry .exits ⟨Archive.bitcode, 0, 0⟩ allexeMain ⟨.fresh false alleyPath, []⟩ = _
  unfold addEntry
  simp only [hadd]
  rfl

theorem Tool.savesOutput_iff_mergeTool :
    SavesOutput storingCodec (fun _ => none) (ascii "/usr/bin/alley")
      ((mergeTool false).toRun noBitcode noPasses) .calm none
      [⟨allexeMain, Archive.bitcode⟩] := by
  obtain ⟨hopens, zip, hbody⟩ := mergeTool_succeeds (fun _ => none) (ascii "/usr/bin/alley")
  apply (Tool.savesOutput_iff storingCodec_lawful hopens hbody).mpr
  unfold NothingLost
  rw [if_neg (by simp [Env.calm])]
  intro hflush
  cases hflush

/-- The temporary file of the archive cannot be created: `zip_close` fails, and the
tool reports success without a file. -/
theorem success_without_output :
    storingCodec.Lawful ∧
      ∃ zip, ((mergeTool false).toRun noBitcode noPasses).Opens (fun _ => none)
          (ascii "/usr/bin/alley") none (.fresh false (ascii "/usr/bin/alley")) ∧
        ((mergeTool false).toRun noBitcode noPasses).body
            ⟨.fresh false (ascii "/usr/bin/alley"), []⟩ =
          (.ok (), ⟨zip, [⟨allexeMain, Archive.bitcode⟩]⟩) ∧
        (zipClose storingCodec zip.archive ⟨fun i => i == 0, []⟩ (.start none)).1 = none ∧
        ((mergeTool false).toRun noBitcode noPasses).run storingCodec (fun _ => none)
          (ascii "/usr/bin/alley") ⟨fun i => i == 0, []⟩ none = (0, none) ∧
        ¬ Archived storingCodec [⟨allexeMain, Archive.bitcode⟩] none := by
  obtain ⟨hopens, zip, hbody⟩ := mergeTool_succeeds (fun _ => none) (ascii "/usr/bin/alley")
  have hadds : Adds (.fresh false (ascii "/usr/bin/alley")) [⟨allexeMain, Archive.bitcode⟩]
      ⟨zip, [⟨allexeMain, Archive.bitcode⟩]⟩ := by
    obtain ⟨main, rest, -, hadds⟩ := (mergeTool false).ensures_body _ _ _ (.start _) hbody
    rwa [← hadds.added] at hadds
  have hmain : ∀ m ∈ ([⟨allexeMain, Archive.bitcode⟩] : List Archive.Module).head?,
      m.name = allexeMain := by
    rintro _ ⟨⟩
    rfl
  refine ⟨storingCodec_lawful, zip, hopens, hbody, ?_, ?_, ?_⟩
  · obtain ⟨hrep, hchanged, -⟩ := @represents_of_adds _ _ _ _ _ _ _ storingCodec hopens.opens
      hadds (List.cons_ne_nil _ _) hmain
    have hsurvivors : zip.archive.survivors ≠ [] :=
      mt hrep.survivors_nil_iff.mp (List.cons_ne_nil _ _)
    exact (zipClose_of_draft_error hsurvivors hchanged rfl).1
  · obtain ⟨archive, -, hfile⟩ := ToolRun.destroy_of_adds storingCodec_lawful hopens.opens hadds
      (List.cons_ne_nil _ _) hmain
    -- the first operation of the draft fails
    have hfails : ∃ i < draftOps storingCodec [⟨allexeMain, Archive.bitcode⟩],
        (⟨fun i => i == 0, []⟩ : Env).fails i = true := by
      refine ⟨0, ?_, rfl⟩
      unfold draftOps
      omega
    rw [ToolRun.run_of_ok hopens hbody, hfile, if_pos (Or.inl hfails)]
    rfl
  · rintro ⟨_, _, hfile, -⟩
    cases hfile

/-! ## Failure -/

/-- The tool is `wllvm-extract`, and linking fails. -/
def Tool.linkFails : Tool γ → Bool
  | .wllvmExtract t => t.composite.isNone
  | _ => false

/-- An archive that was opened to overwrite and has no entries removes the file,
unless the removal fails. -/
theorem destroy_fresh (alleyPath : Text) (old : Bytes) :
    ToolRun.destroy codec env (some old) (.fresh true alleyPath) =
      if env.fails 0 = true then some old else none := by
  unfold ToolRun.destroy zipClose
  rw [if_pos (show (ZipArchive.fresh true alleyPath).archive.survivors = [] from rfl)]
  by_cases hfails : env.fails 0 = true
  · simp [ZipArchive.fresh, sourceRemove, op, World.start, hfails]
  · simp [ZipArchive.fresh, sourceRemove, op, World.start, hfails]

/-- **A failing overwrite keeps the old file** if and only if the tool is not
`wllvm-extract` with a link error, or the removal of the file fails. -/
theorem Tool.keepsOld_iff {tool : Tool γ} {old : Bytes} {leave : Leave}
    (hoverwrite : (tool.toRun bitcode passes).overwrite = true)
    (hopens : (tool.toRun bitcode passes).Opens parse alleyPath (some old) start)
    (hbody : (tool.toRun bitcode passes).body ⟨start, []⟩ = (.error leave, out)) :
    ((tool.toRun bitcode passes).run codec parse alleyPath env (some old)).2 = some old ↔
      (tool.linkFails = true → env.fails 0 = true) := by
  have hstart : start = .fresh true alleyPath := by
    have hopen := hopens.opens
    rw [hoverwrite, openAllexe_fresh parse alleyPath (Or.inl rfl)] at hopen
    exact (Option.some.inj hopen).symm
  rw [ToolRun.run_of_error hopens hbody]
  have hexits (htool : ∀ t, tool ≠ .wllvmExtract t) (hlink : tool.linkFails = false) :
      ToolRun.afterError codec env (some old) out.zip leave = some old ↔
        (tool.linkFails = true → env.fails 0 = true) := by
    obtain rfl := tool.leavesOnly_body htool _ _ _ hbody
    simp [hlink, ToolRun.afterError]
  cases tool with
  | bc2allvm t => exact hexits (fun _ h => by cases h) rfl
  | alltogether t => exact hexits (fun _ h => by cases h) rfl
  | allopt t => exact hexits (fun _ h => by cases h) rfl
  | allmux t => exact hexits (fun _ h => by cases h) rfl
  | wllvmExtract t =>
      rcases bind_eq_error_iff.mp hbody with hlink | ⟨m, out₁, hlinked, hadd⟩
      · -- the error of the linker is returned, and the destructor runs
        cases hcomposite : t.composite with
        | some m =>
            rw [hcomposite] at hlink
            cases hlink
        | none =>
            rw [hcomposite] at hlink
            cases hlink
            rw [hstart]
            show ToolRun.destroy codec env (some old) (.fresh true alleyPath) = some old ↔ _
            rw [destroy_fresh]
            simp [Tool.linkFails, hcomposite]
      · -- the archive is empty and takes the module
        obtain ⟨-, rfl⟩ := orLeave_eq_ok hlinked
        rw [hstart] at hadd
        exfalso
        have hrun : ∀ entry : Buffer, ∀ e o,
            addEntry .returns entry allexeMain ⟨.fresh true alleyPath, []⟩ ≠ (.error e, o) := by
          intro entry e o herror
          obtain ⟨zip, htaken⟩ := addEntry_main_fresh true alleyPath entry
          unfold addEntry at herror
          simp only [htaken] at herror
          cases herror
        exact hrun _ _ _ hadd

/-- `wllvm-extract -f` where a mentioned bitcode file is missing. -/
def failingExtract : Tool Unit :=
  .wllvmExtract ⟨none, true, false, false⟩

theorem Tool.keepsOld_iff_failingExtract :
    ((failingExtract.toRun noBitcode noPasses).run storingCodec (fun _ => none)
      (ascii "/usr/bin/alley") ⟨fun i => i == 0, []⟩ (some [1])).2 = some [1] :=
  (@Tool.keepsOld_iff _ noBitcode noPasses storingCodec (fun _ => none) (ascii "/usr/bin/alley")
    ⟨fun i => i == 0, []⟩ _ _ failingExtract [1] .returns rfl
    ⟨rfl, openAllexe_fresh _ _ (Or.inl rfl)⟩ rfl).mpr fun _ => rfl

/-- The old output is gone after a link error, although nothing failed on the disk. -/
theorem link_error_removes_old :
    (failingExtract.toRun noBitcode noPasses).Opens (fun _ => none) (ascii "/usr/bin/alley")
        (some [1]) (.fresh true (ascii "/usr/bin/alley")) ∧
      (failingExtract.toRun noBitcode noPasses).body
          ⟨.fresh true (ascii "/usr/bin/alley"), []⟩ =
        (.error .returns, ⟨.fresh true (ascii "/usr/bin/alley"), []⟩) ∧
      (failingExtract.toRun noBitcode noPasses).run storingCodec (fun _ => none)
        (ascii "/usr/bin/alley") .calm (some [1]) = (1, none) :=
  ⟨⟨rfl, openAllexe_fresh _ _ (Or.inl rfl)⟩, rfl, rfl⟩

end Tools
end AllvmTools
