import AllvmTools.Archive.CloseOutcome
import AllvmTools.Archive.OpenArchive
import AllvmTools.Library.Leaving

/-!
# The output scope of a tool

Between `Allexe::open` and the end of the scope that owns the opened output, a
tool adds modules.  An error ends the process there: `exit` runs no destructor,
a returned error does, and so does the end of the scope.  The destructor of the
archive calls `zip_close` and ignores its result.

* `ToolRun.run` — the exit status and the file at the output path.
* `Adds` — the open archive after some modules were added.
* `destroy_of_adds` — the file after a scope that ended without an error.
-/

namespace AllvmTools
namespace Tools

open Library Library.Files Library.Leaving Library.Leaving.Program Archive

/-- How a tool leaves its output scope on an error. -/
inductive Leave where
  /-- `exit`, as in `ExitOnError`: no destructor runs. -/
  | exits
  /-- The error is returned: the destructors run. -/
  | returns
deriving DecidableEq, Repr

/-- The open output and the modules whose addition was reported as a success. -/
structure Output where
  zip : ZipArchive
  added : List Module

/-- A part of the output scope. -/
abbrev Scope := Program Leave Output

/-- `ExitOnErr`, and `exit(1)` where something is missing. -/
def exitOnErr {α : Type} (x : Option α) : Scope α :=
  orLeave .exits x

/-- An error that is returned. -/
def returnErr {α : Type} (x : Option α) : Scope α :=
  orLeave .returns x

/-- `ZipArchive::addEntry`; a caller that gets its error leaves. -/
def addEntry (leave : Leave) (entry : Buffer) (entryName : Text) : Scope Unit :=
  fun out =>
    match out.zip.addEntry entry entryName with
    | (true, zip) => (.ok (), ⟨zip, out.added ++ [⟨entryName, entry.bytes⟩]⟩)
    | (false, zip) => (.error leave, ⟨zip, out.added⟩)

/-- `Allexe::addModule` for a module in memory, written as `entry`. -/
def addModule (leave : Leave) (entry : Buffer) (identifier moduleName : Text) : Scope Unit :=
  addEntry leave entry (if moduleName = [] then identifier else moduleName)

/-- `llvm::isBitcode`: the magic number, or that of the wrapper. -/
def isBitcode (bytes : Bytes) : Bool :=
  bytes.take 4 == [0xDE, 0xC0, 0x17, 0x0B] || bytes.take 4 == [0x42, 0x43, 0xC0, 0xDE]

/-- `Allexe::addModule` for a file. -/
def addFile (leave : Leave) (file : Option Buffer) (filename moduleName : Text) :
    Scope Unit := do
  let buf ← orLeave leave file
  if isBitcode buf.bytes then
    addEntry leave buf (if moduleName = [] then filename else moduleName)
  else
    Program.leave leave

/-- A path the system opens: it is shorter than `PATH_MAX`. -/
structure OpenedPath where
  text : Text
  short : text.length < 4096
deriving DecidableEq, Repr

/-! ## Processes -/

/-- A tool as far as its output is concerned. -/
structure ToolRun where
  /-- It gives up on what is there at the output path before opening it. -/
  refuses : Option Bytes → Bool
  overwrite : Bool
  body : Scope Unit
  /-- The exit status after the scope, which may depend on the file then. -/
  status : Option Bytes → Nat

namespace ToolRun

/-- `~ZipArchive`: the file after the deferred `zip_close`, whose result is ignored. -/
def destroy (codec : Codec) (env : Env) (file : Option Bytes) (zip : ZipArchive) :
    Option Bytes :=
  (zipClose codec zip.archive env (.start file)).2.file

/-- The exit status, and the file at the output path when the process ends. -/
def run (codec : Codec) (parse : Bytes → Option (List Dirent)) (alleyPath : Text) (t : ToolRun)
    (env : Env) (file : Option Bytes) : Nat × Option Bytes :=
  if t.refuses file then
    (1, file)
  else
    match openAllexe parse alleyPath file t.overwrite with
    | none => (1, file)
    | some zip =>
        match t.body ⟨zip, []⟩ with
        | (.error .exits, _) => (1, file)
        | (.error .returns, out) => (1, destroy codec env file out.zip)
        | (.ok (), out) =>
            (t.status (destroy codec env file out.zip), destroy codec env file out.zip)

/-- The output is opened. -/
structure Opens (parse : Bytes → Option (List Dirent)) (alleyPath : Text) (t : ToolRun)
    (file : Option Bytes) (zip : ZipArchive) : Prop where
  accepts : t.refuses file = false
  opens : openAllexe parse alleyPath file t.overwrite = some zip

section Run

variable {codec : Codec} {parse : Bytes → Option (List Dirent)} {alleyPath : Text} {t : ToolRun}
  {env : Env} {file : Option Bytes} {zip : ZipArchive} {out : Output}

/-- What leaving the scope does to the file. -/
def afterError (codec : Codec) (env : Env) (file : Option Bytes) (zip : ZipArchive) :
    Leave → Option Bytes
  | .exits => file
  | .returns => destroy codec env file zip

theorem run_of_error (h : t.Opens parse alleyPath file zip) {leave : Leave}
    (hbody : t.body ⟨zip, []⟩ = (.error leave, out)) :
    t.run codec parse alleyPath env file = (1, afterError codec env file out.zip leave) := by
  unfold run
  rw [h.accepts, h.opens]
  simp only [Bool.false_eq_true, if_false, hbody]
  cases leave <;> rfl

theorem run_of_ok (h : t.Opens parse alleyPath file zip)
    (hbody : t.body ⟨zip, []⟩ = (.ok (), out)) :
    t.run codec parse alleyPath env file =
      (t.status (destroy codec env file out.zip), destroy codec env file out.zip) := by
  unfold run
  rw [h.accepts, h.opens]
  simp only [Bool.false_eq_true, if_false, hbody]

end Run

end ToolRun

/-! ## Additions -/

/-- The open archive is what adding these modules made of `start`. -/
structure Adds (start : ZipArchive) (modules : List Module) (out : Output) : Prop where
  added : out.added = modules
  built : ∃ entries : List (Text × Buffer),
    applyOps start (entries.map fun e => .add e.1 e.2) = some out.zip ∧
    (entries.map fun e => (⟨e.1, e.2.bytes⟩ : Module)) = modules ∧
    ∀ e ∈ entries, e.1.length ≤ 0xFFFF

theorem Adds.start (zip : ZipArchive) : Adds zip [] ⟨zip, []⟩ :=
  ⟨rfl, [], rfl, rfl, fun _ he => by cases he⟩

/-- An addition that succeeds. -/
theorem ensures_addEntry {start : ZipArchive} {modules : List Module} (leave : Leave)
    (entry : Buffer) {entryName : Text} (hname : entryName.length ≤ 0xFFFF) :
    Ensures (Adds start modules) (addEntry leave entry entryName)
      fun _ => Adds start (modules ++ [⟨entryName, entry.bytes⟩]) := by
  intro out _ out' hout hrun
  obtain ⟨hadded, entries, hops, hmodules, hshort⟩ := hout
  unfold addEntry at hrun
  split at hrun
  · next zip hadd =>
      cases hrun
      refine ⟨congrArg (· ++ _) hadded, entries ++ [(entryName, entry)], ?_, ?_, ?_⟩
      · have hop : applyOp out.zip (.add entryName entry) = some zip := by
          simp only [applyOp, hadd]
        rw [List.map_append]
        exact applyOps_append hops hop
      · rw [List.map_append, hmodules]
        rfl
      · intro e he
        rcases List.mem_append.mp he with he | he
        · exact hshort e he
        · rw [List.mem_singleton.mp he]
          exact hname
  · cases hrun

/-- A failing addition leaves in the way that was asked for. -/
theorem leavesOnly_addModule (leave : Leave) (entry : Buffer) (identifier moduleName : Text) :
    LeavesOnly (· = leave) (addModule leave entry identifier moduleName) := by
  intro out e out' hrun
  unfold addModule addEntry at hrun
  split at hrun
  · cases hrun
  · cases hrun
    rfl

/-- `ExitOnErr` only exits. -/
theorem leavesOnly_exitOnErr {α : Type} (x : Option α) :
    LeavesOnly (· = Leave.exits) (exitOnErr x) :=
  LeavesOnly.orLeave Leave.exits x

theorem ensures_addFile {start : ZipArchive} {modules : List Module} (leave : Leave)
    (file : Option Buffer) {filename moduleName : Text} (hne : moduleName ≠ [])
    (hname : moduleName.length ≤ 0xFFFF) :
    Ensures (Adds start modules) (addFile leave file filename moduleName)
      fun _ out => ∃ buf, file = some buf ∧
        Adds start (modules ++ [⟨moduleName, buf.bytes⟩]) out := by
  apply Ensures.orLeave
  intro buf hbuf
  rw [if_neg hne]
  split
  · intro out a out' hout hrun
    exact ⟨buf, hbuf, ensures_addEntry leave buf hname out a out' hout hrun⟩
  · exact Ensures.leave

theorem leavesOnly_addFile (leave : Leave) (file : Option Buffer) (filename moduleName : Text) :
    LeavesOnly (· = leave) (addFile leave file filename moduleName) := by
  refine (LeavesOnly.orLeave leave file).bind fun buf => ?_
  split
  · intro out e out' hrun
    unfold addEntry at hrun
    split at hrun
    · cases hrun
    · cases hrun
      rfl
  · exact LeavesOnly.leave leave

/-- Additions that begin with the main module make an archive of new entries. -/
theorem represents_of_adds {parse : Bytes → Option (List Dirent)} {alleyPath : Text}
    {file : Option Bytes} {overwrite : Bool} {start : ZipArchive} {modules : List Module}
    {out : Output} {codec : Codec}
    (hopen : openAllexe parse alleyPath file overwrite = some start)
    (hadds : Adds start modules out) (hne : modules ≠ [])
    (hmain : ∀ m ∈ modules.head?, m.name = allexeMain) :
    Represents codec none out.zip modules ∧ out.zip.archive.changed = true ∧
      out.zip.archive.prefixdata = some (shebang alleyPath) := by
  obtain ⟨-, entries, hops, rfl, hshort⟩ := hadds
  have hfits : ∀ op ∈ entries.map (fun e => ArchiveOp.add e.1 e.2), op.Fits := by
    intro op hop
    obtain ⟨e, he, rfl⟩ := List.mem_map.mp hop
    exact hshort e he
  have hfront : start.archive.prefixdata = some (shebang alleyPath) := by
    rcases openAllexe_cases hopen with rfl | ⟨-, dirents, rfl, -⟩ <;> rfl
  have hmodel : ∀ (es : List (Text × Buffer)) (ms : List Module),
      (es.map fun e => ArchiveOp.add e.1 e.2).foldl ArchiveOp.model ms =
        ms ++ es.map fun e => ⟨e.1, e.2.bytes⟩ := by
    intro es
    induction es with
    | nil => simp
    | cons e rest ih =>
        intro ms
        rw [List.map_cons, List.foldl_cons, ih, List.map_cons, ArchiveOp.model]
        simp
  -- `main.bc` could be added first, so the archive had no entries
  have hstart : Represents codec none start [] := by
    cases entries with
    | nil => exact absurd rfl hne
    | cons e rest =>
        have hname : e.1 = allexeMain := hmain _ rfl
        rw [List.map_cons, applyOps] at hops
        split at hops
        · cases hops
        · next zip hadd =>
            rw [hname] at hadd
            exact entries_nil_of_add_main hopen hadd
  have hrep := hstart.applyOps hfits hops
  obtain ⟨-, hfront', hchanged⟩ := applyOps_frame hstart hfits hops
  refine ⟨?_, hchanged ?_, hfront'.trans hfront⟩
  · rwa [hmodel, List.nil_append] at hrep
  · intro hnil
    exact hne (by rw [List.map_eq_nil_iff.mp hnil]; rfl)

/-- What stands for a module without a file stands for it anyway. -/
theorem pending_of_none {codec : Codec} {e : ZipEntry} {m : Module}
    (h : Pending codec none e m) (old : Option Bytes) :
    Pending codec old e m ∧ e.orig = none := by
  cases h with
  | kept hold => cases hold
  | replaced hold => cases hold
  | added hname => exact ⟨.added hname, rfl⟩

namespace ToolRun

/-- The file after a scope that added modules, the main module first: the old
one where an operation of the draft or the rename fails, what was flushed where
only the `fclose` fails, and otherwise an archive of exactly the modules. -/
theorem destroy_of_adds {codec : Codec} (hcodec : codec.Lawful)
    {parse : Bytes → Option (List Dirent)} {alleyPath : Text} {file : Option Bytes}
    {overwrite : Bool} {start : ZipArchive} {modules : List Module} {out : Output}
    (hopen : openAllexe parse alleyPath file overwrite = some start)
    (hadds : Adds start modules out) (hne : modules ≠ [])
    (hmain : ∀ m ∈ modules.head?, m.name = allexeMain) :
    ∃ archive : Bytes, Archived codec modules (some archive) ∧
      ∀ env, destroy codec env file out.zip =
        if (∃ i < draftOps codec modules, env.fails i = true) ∨
            env.fails (draftOps codec modules + 1) = true then
          file
        else if env.fails (draftOps codec modules) = true then
          some env.left
        else
          some archive := by
  obtain ⟨hrep, hchanged, hfront⟩ := @represents_of_adds _ _ _ _ _ _ _ codec hopen hadds hne hmain
  have hentries := hrep.entries
  rw [← hrep.survivors] at hentries
  have hpending : List.Forall₂ (Pending codec file) out.zip.archive.survivors modules :=
    hentries.imp fun e m h => (pending_of_none h file).1
  have hnew : ∀ e ∈ out.zip.archive.survivors, e.orig = none := by
    intro e he
    obtain ⟨i, hi⟩ := List.mem_iff_getElem?.mp he
    obtain ⟨m, -, h⟩ := forall₂_getElem? hentries hi
    exact (pending_of_none h none).2
  exact zipClose_outcome hcodec hpending hnew hne hfront hchanged

end ToolRun

end Tools
end AllvmTools
