import AllvmTools.Library.ListsInStep
import AllvmTools.Library.Paths
import AllvmTools.ExecutionYengine.StartImage

/-!
# The command line of a program

`alley` makes a vector of arguments, with a name for the program in front.  It
reaches the program through `fexecve`, or through the start image of `runHosted`.

* `received_static`, `received_hosted` — both ends receive the texts that the
  pointers stand for.
* `progName_correct_iff` — the name is the right one, unless an extension should
  have been removed.
* `handsOver_iff` — both ends receive the right command line just then.
* `extension_is_kept` — `alley` and an allexe with its usual extension.
-/

namespace AllvmTools
namespace ExecutionYengine

open Library Library.Paths Library.NullTerminated

/-! ## `alley` -/

/-- `invokedAsAlley`. -/
def invokedAsAlley (argv0 : Text) : Bool :=
  (ascii "alley").isSuffixOf argv0

/-- `sys::path::has_extension`. -/
def hasExtension (path : Text) : Bool :=
  !(extension path).isEmpty

/-- `ProgName` in the `main` of `alley`. -/
def progName (argv0 inputFilename : Text) : Text :=
  if invokedAsAlley argv0 then
    if hasExtension inputFilename then
      let ext := extension inputFilename
      if ext = ascii "allexe" then
        inputFilename.take (inputFilename.length - ext.length)
      else
        inputFilename
    else
      inputFilename
  else
    argv0

/-- `InputArgv` with the name in front. -/
def inputArgv (argv0 inputFilename : Text) (args : List Text) : List Text :=
  progName argv0 inputFilename :: args

/-! ## The two ends -/

/-- What `tryStaticExec` does. -/
inductive StaticExec where
  | tooManyModules
  /-- Nothing was executed. -/
  | notCached
  /-- The option `noexec` ends the process. -/
  | skipped
  | fexecve (argv envp : List UInt64)
deriving DecidableEq, Repr

/-- `tryStaticExec`, with the descriptor of the cached image. -/
def tryStaticExec (numModules : Nat) (execFD : Int) (noExec : Bool) (info : ExecutionInfo) :
    StaticExec :=
  if numModules ≠ 1 then
    .tooManyModules
  else
    let argv := info.args ++ [0]
    if execFD < 0 then .notCached
    else if noExec then .skipped
    else .fexecve argv info.envp

/-- What a program is started with. -/
structure Program where
  argv : List Text
  env : List Text
deriving DecidableEq, Repr

/-- The texts at some addresses. -/
def texts (memory : UInt64 → Option Text) (ptrs : List UInt64) : Option (List Text) :=
  ptrs.mapM memory

/-- `execve`: both vectors are read up to their nulls. -/
def execve (memory : UInt64 → Option Text) (argv envp : List UInt64) : Option Program :=
  match untilNull argv, untilNull envp with
  | some (args, _), some (env, _) =>
      match texts memory args, texts memory env with
      | some argv, some env => some ⟨argv, env⟩
      | _, _ => none
  | _, _ => none

/-- The call of `main` at the end of `__libc_start_main`. -/
def startMain (memory : UInt64 → Option Text) (call : StartCall) : Option Program :=
  match libcStartMain call with
  | none => none
  | some started =>
      match texts memory started.args, texts memory started.env with
      | some argv, some env => some ⟨argv, env⟩
      | _, _ => none

/-- `doJITExec`: what comes before `runHosted` may fail, and `noexec` ends there;
`none` is a return without a start. -/
def doJITExec (prepared noExec : Bool) (value : AuxType → UInt64) (info : ExecutionInfo) :
    Option StartCall :=
  if prepared then
    match runHosted value info with
    | .error _ => none
    | .ok call => if noExec then none else some call
  else
    none

/-! ## The property -/

/-- The extension of an allexe, with its dot. -/
def allexeExtension : Text :=
  ascii ".allexe"

/-- The name a program should have: that of the invocation, or else that of the
allexe without its extension. -/
def programName (argv0 inputFilename : Text) : Text :=
  if invokedAsAlley argv0 then
    if extension inputFilename = allexeExtension then
      inputFilename.take (inputFilename.length - allexeExtension.length)
    else
      inputFilename
  else
    argv0

/-- These pointers stand for these texts, each of them a C string. -/
def Placed (memory : UInt64 → Option Text) (ptrs : List UInt64) (strings : List Text) : Prop :=
  List.Forall₂ (fun p string => p ≠ 0 ∧ 0 ∉ string ∧ memory p = some string) ptrs strings

/-- Whenever one of the two ends starts the program, it receives the right name, then
the arguments, and the environment. -/
structure HandsOver (memory : UInt64 → Option Text) (info : ExecutionInfo)
    (argv0 inputFilename : Text) (args env : List Text) : Prop where
  static : ∀ numModules execFD noExec argv envp,
    tryStaticExec numModules execFD noExec info = .fexecve argv envp →
      execve memory argv envp = some ⟨programName argv0 inputFilename :: args, env⟩
  hosted : ∀ prepared noExec value call, doJITExec prepared noExec value info = some call →
    startMain memory call = some ⟨programName argv0 inputFilename :: args, env⟩

/-! ## What is received -/

section Received

variable {memory : UInt64 → Option Text} {argPtrs envPtrs : List UInt64}
  {strings env : List Text} {beyond : List UInt64}

theorem Placed.nonnull {ptrs : List UInt64} (h : Placed memory ptrs strings) :
    ∀ p ∈ ptrs, p ≠ 0 := by
  intro p hp
  obtain ⟨i, hi⟩ := List.mem_iff_getElem?.mp hp
  obtain ⟨string, -, hplaced⟩ := forall₂_getElem? h hi
  exact hplaced.1

theorem Placed.texts {ptrs : List UInt64} (h : Placed memory ptrs strings) :
    texts memory ptrs = some strings := by
  induction h with
  | nil => rfl
  | cons hfirst _ ih =>
      unfold ExecutionYengine.texts at ih ⊢
      rw [List.mapM_cons, hfirst.2.2, ih]
      rfl

/-- `fexecve` hands over the texts of both vectors. -/
theorem received_static (hargs : Placed memory argPtrs strings) (henv : Placed memory envPtrs env) :
    execve memory (argPtrs ++ [0]) (envPtrs ++ 0 :: beyond) = some ⟨strings, env⟩ := by
  unfold execve
  rw [untilNull_append hargs.nonnull, untilNull_append henv.nonnull]
  dsimp only
  rw [hargs.texts, henv.texts]

/-- So does the start image. -/
theorem received_hosted (hargs : Placed memory argPtrs strings) (henv : Placed memory envPtrs env)
    {value : AuxType → UInt64} {call : StartCall}
    (h : runHosted value ⟨argPtrs, envPtrs ++ 0 :: beyond⟩ = .ok call) :
    startMain memory call = some ⟨strings, env⟩ := by
  rw [runHosted_eq value henv.nonnull] at h
  split at h
  · cases h
  · cases h
    unfold startMain
    rw [libcStartMain_stackInit henv.nonnull]
    dsimp only
    rw [hargs.texts, henv.texts]

end Received

/-! ## The name -/

/-- No extension is `allexe`, for it starts with a dot. -/
theorem progName_eq (argv0 inputFilename : Text) :
    progName argv0 inputFilename = if invokedAsAlley argv0 then inputFilename else argv0 := by
  have hext : extension inputFilename ≠ ascii "allexe" := by
    rcases extension_cases inputFilename with h | ⟨rest, h⟩
    · rw [h]
      decide
    · rw [h]
      intro hsame
      cases hsame
  unfold progName
  simp only [if_neg hext, ite_self]

/-- A path has the extension of an allexe where it ends with it. -/
theorem extension_eq_allexe_iff (path : Text) :
    extension path = allexeExtension ↔ allexeExtension <:+ path := by
  have hdot : allexeExtension = dot :: ascii "allexe" := by decide
  rw [hdot]
  exact extension_eq_iff (by decide) (by decide) (by decide)

/-- The name is the right one, unless there was an extension to remove. -/
theorem progName_correct_iff (argv0 inputFilename : Text) :
    progName argv0 inputFilename = programName argv0 inputFilename ↔
      ¬ (invokedAsAlley argv0 = true ∧ extension inputFilename = allexeExtension) := by
  rw [progName_eq, programName]
  by_cases hinvoked : invokedAsAlley argv0 = true
  · rw [if_pos hinvoked, if_pos hinvoked]
    by_cases hext : extension inputFilename = allexeExtension
    · rw [if_pos hext]
      refine iff_of_false ?_ fun h => h ⟨hinvoked, hext⟩
      -- what is removed is not empty
      have hle := ((extension_eq_allexe_iff inputFilename).mp hext).length_le
      have hpos : allexeExtension.length = 7 := by decide
      intro h
      have hlength := congrArg List.length h
      rw [List.length_take] at hlength
      omega
    · rw [if_neg hext]
      exact iff_of_true rfl fun h => hext h.2
  · rw [if_neg hinvoked, if_neg hinvoked]
    exact iff_of_true rfl fun h => hinvoked h.1

/-- **The command line**: both ends hand it over as it should be, unless `alley` was
invoked under its own name with an allexe that has its extension. -/
theorem handsOver_iff {memory : UInt64 → Option Text} {argv0 inputFilename : Text}
    {args env : List Text} {argPtrs envPtrs : List UInt64}
    (hargs : Placed memory argPtrs (inputArgv argv0 inputFilename args))
    (henv : Placed memory envPtrs env) (beyond : List UInt64) :
    HandsOver memory ⟨argPtrs, envPtrs ++ 0 :: beyond⟩ argv0 inputFilename args env ↔
      ¬ (invokedAsAlley argv0 = true ∧ extension inputFilename = allexeExtension) := by
  rw [← progName_correct_iff]
  have hstatic := @received_static _ _ _ _ _ beyond hargs henv
  constructor
  · intro h
    have hright := h.static 1 0 false _ _ rfl
    dsimp only at hright
    rw [hstatic] at hright
    exact (List.cons.inj (Program.mk.inj (Option.some.inj hright)).1).1
  · intro hname
    unfold inputArgv at hargs hstatic
    rw [hname] at hargs hstatic
    refine ⟨?_, ?_⟩
    · intro numModules execFD noExec argv envp hexec
      unfold tryStaticExec at hexec
      split at hexec
      · cases hexec
      dsimp only at hexec
      split at hexec
      · cases hexec
      split at hexec
      · cases hexec
      · cases hexec
        exact hstatic
    · intro prepared noExec value call hcall
      unfold doJITExec at hcall
      split at hcall
      · split at hcall
        · cases hcall
        · next call' hrun =>
            split at hcall
            · cases hcall
            · cases hcall
              exact received_hosted hargs henv hrun
      · cases hcall

/-- The strings of `which -a ls`, with one variable in its environment. -/
def whichMemory : UInt64 → Option Text
  | 0x1000 => some (ascii "/bin/which")
  | 0x1010 => some (ascii "-a")
  | 0x1020 => some (ascii "ls")
  | 0x2000 => some (ascii "PATH=/bin")
  | _ => none

/-- A program of another name gets its own name, its arguments and its environment. -/
theorem handsOver_iff_which :
    HandsOver whichMemory ⟨[0x1000, 0x1010, 0x1020], [0x2000, 0]⟩ (ascii "/bin/which")
      (ascii "/tmp/which.allexe") [ascii "-a", ascii "ls"] [ascii "PATH=/bin"] :=
  (@handsOver_iff whichMemory (ascii "/bin/which") (ascii "/tmp/which.allexe")
    [ascii "-a", ascii "ls"] [ascii "PATH=/bin"] [0x1000, 0x1010, 0x1020] [0x2000]
    (.cons (by decide) (.cons (by decide) (.cons (by decide) .nil))) (.cons (by decide) .nil)
    []).mpr (by decide)

/-- `alley` runs an allexe with its usual extension: the program is called
`/tmp/which.allexe`, not `/tmp/which`. -/
theorem extension_is_kept :
    progName (ascii "alley") (ascii "/tmp/which.allexe") = ascii "/tmp/which.allexe" ∧
      programName (ascii "alley") (ascii "/tmp/which.allexe") = ascii "/tmp/which" ∧
      ¬ HandsOver (fun p => if p = 0x1000 then some (ascii "/tmp/which.allexe") else none)
        ⟨[0x1000], [0]⟩ (ascii "alley") (ascii "/tmp/which.allexe") [] [] := by
  refine ⟨by decide, by decide, ?_⟩
  intro h
  exact absurd (h.static 1 0 false _ _ rfl) (by decide)

end ExecutionYengine
end AllvmTools
