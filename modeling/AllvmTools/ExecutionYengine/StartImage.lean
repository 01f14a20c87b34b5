import Mathlib.Data.Int.Basic
import AllvmTools.Library.NullTerminated
import AllvmTools.Library.Text

/-!
# The start image of a hosted program

`runHosted` lays out the words that a libc expects on the stack: the arguments, the
environment and the auxiliary vector.  `__libc_start_main` finds them again from the
number of arguments, a null word and a zero type.

* `runHosted_eq` — the image, or the size error, from the number of words.
* `libcStartMain_stackInit` — what the libc reads in an image.
* `start_image_decodes` — both together.
-/

namespace AllvmTools
namespace ExecutionYengine

open Library Library.NullTerminated

/-! ## `runHosted` -/

/-- The types of the auxiliary values that are emitted. -/
inductive AuxType where
  | uid
  | euid
  | gid
  | egid
  | pagesz
  | secure
  | hwcap
  | random
deriving DecidableEq, Repr

/-- Their numbers in `elf.h`. -/
def AuxType.word : AuxType → UInt64
  | uid => 11
  | euid => 12
  | gid => 13
  | egid => 14
  | pagesz => 6
  | secure => 23
  | hwcap => 16
  | random => 25

/-- The order in which `addAuxv` is called. -/
def auxTypes : List AuxType :=
  [.uid, .euid, .gid, .egid, .pagesz, .secure, .hwcap, .random]

/-- The calls of `addAuxv`. -/
def auxv (value : AuxType → UInt64) : List (UInt64 × UInt64) :=
  auxTypes.map fun type => (type.word, value type)

/-- What the system calls return. -/
structure System where
  uid : UInt64
  euid : UInt64
  gid : UInt64
  egid : UInt64
  pagesize : UInt64

/-- The values `runHosted` passes to `addAuxv`. -/
def System.value (system : System) : AuxType → UInt64
  | .uid => system.uid
  | .euid => system.euid
  | .gid => system.gid
  | .egid => system.egid
  | .pagesz => system.pagesize
  | .secure => 0
  | .hwcap => 0
  | .random => 0

/-- `ExecutionInfo`: the arguments as pointers to their text, and the words from
`envp` on. -/
structure ExecutionInfo where
  args : List UInt64
  envp : List UInt64

/-- `INIT_STACK_MAX`. -/
def initStackMax : Nat :=
  16384

/-- `AT_NULL`. -/
def atNull : UInt64 :=
  0

/-- `stack_init`: two lists with their nulls, the auxiliary values, and `AT_NULL`. -/
def stackInit (args env : List UInt64) (value : AuxType → UInt64) : List UInt64 :=
  args ++ [0] ++ env ++ [0] ++ flatten (auxv value) ++ [atNull]

/-- A call of `__libc_start_main`. -/
structure StartCall where
  argc : Int
  stack : List UInt64
deriving DecidableEq, Repr

/-- The errors of `runHosted` up to the call. -/
inductive HostedError where
  /-- The environment does not end within its memory. -/
  | envpOutOfBounds
  /-- "too many variables; stack size too large" -/
  | tooManyVariables
deriving DecidableEq, Repr

/-- `runHosted`, up to its call of `__libc_start_main`. -/
def runHosted (value : AuxType → UInt64) (info : ExecutionInfo) : Except HostedError StartCall :=
  match untilNull info.envp with
  | none => .error .envpOutOfBounds
  | some (env, _) =>
      let stack := stackInit info.args env value
      if initStackMax ≤ stack.length then
        .error .tooManyVariables
      else
        -- the size is cast to an `int`
        .ok ⟨Int.bmod info.args.length (2 ^ 32), stack⟩

/-! ## `__libc_start_main` -/

/-- `AUX_CNT`. -/
def auxCnt : Nat :=
  38

/-- The array `aux` of `__init_libc`, which starts with zeros. -/
def aux (pairs : List (UInt64 × UInt64)) : Nat → UInt64 :=
  pairs.foldl
    (fun array pair =>
      if pair.1.toNat < auxCnt then Function.update array pair.1.toNat pair.2 else array)
    fun _ => 0

/-- What the libc finds: the arguments, the environment and the auxiliary values. -/
structure Started where
  args : List UInt64
  env : List UInt64
  auxv : List (UInt64 × UInt64)
deriving DecidableEq, Repr

/-- `__init_libc`: the loops over `envp` and over `auxv`. -/
def initLibc (envp : List UInt64) : Option (List UInt64 × List (UInt64 × UInt64)) :=
  match untilNull envp with
  | none => none
  | some (env, auxv) =>
      match pairsUntilZero auxv with
      | none => none
      | some pairs => some (env, pairs)

/-- `__libc_start_main`: `argc` words are arguments, and `envp` is `argv + argc + 1`;
`none` is a read outside of the stack image. -/
def libcStartMain (call : StartCall) : Option Started :=
  if call.argc < 0 ∨ call.stack.length < call.argc.toNat then
    none
  else
    match initLibc (call.stack.drop (call.argc.toNat + 1)) with
    | none => none
    | some (env, pairs) => some ⟨call.stack.take call.argc.toNat, env, pairs⟩

/-! ## Reading the image -/

theorem length_auxv (value : AuxType → UInt64) : (auxv value).length = 8 :=
  rfl

/-- No emitted type is that of the end. -/
theorem auxv_type_ne_zero (value : AuxType → UInt64) : ∀ pair ∈ auxv value, pair.1 ≠ 0 := by
  intro pair hpair
  obtain ⟨type, -, rfl⟩ := List.mem_map.mp hpair
  show type.word ≠ 0
  cases type <;> decide

/-- The array of the libc holds the value of every type. -/
theorem aux_auxv (value : AuxType → UInt64) (type : AuxType) :
    aux (auxv value) type.word.toNat = value type := by
  cases type <;> rfl

theorem length_stackInit (args env : List UInt64) (value : AuxType → UInt64) :
    (stackInit args env value).length = args.length + env.length + 19 := by
  unfold stackInit
  simp only [List.length_append, List.length_singleton, length_flatten, length_auxv]
  omega

/-- The image is built just where it is not too large. -/
theorem runHosted_eq (value : AuxType → UInt64) {args env : List UInt64}
    (henv : ∀ p ∈ env, p ≠ 0) (beyond : List UInt64) :
    runHosted value ⟨args, env ++ 0 :: beyond⟩ =
      if initStackMax ≤ args.length + env.length + 19 then .error .tooManyVariables
      else .ok ⟨args.length, stackInit args env value⟩ := by
  unfold runHosted
  rw [untilNull_append henv]
  dsimp only
  rw [length_stackInit]
  split
  · rfl
  · next hsize =>
      -- so few words that their number is an `int`
      have hargs : args.length < 16384 := by
        unfold initStackMax at hsize
        omega
      rw [Int.bmod_eq_of_le (by omega) (by omega)]

/-- What the libc reads: the arguments by their number, the environment up to its
null, and the pairs up to the single word at the end. -/
theorem libcStartMain_stackInit {args env : List UInt64} (henv : ∀ p ∈ env, p ≠ 0)
    (value : AuxType → UInt64) :
    libcStartMain ⟨args.length, stackInit args env value⟩ = some ⟨args, env, auxv value⟩ := by
  have hstack : stackInit args env value =
      args ++ (0 :: (env ++ 0 :: (flatten (auxv value) ++ 0 :: []))) := by
    simp only [stackInit, atNull, List.append_assoc, List.cons_append, List.nil_append]
  have hdrop : (stackInit args env value).drop (args.length + 1) =
      env ++ 0 :: (flatten (auxv value) ++ 0 :: []) := by
    rw [hstack, List.drop_length_add_append]
    rfl
  have htake : (stackInit args env value).take args.length = args := by
    rw [hstack, List.take_left]
  unfold libcStartMain
  dsimp only
  rw [Int.toNat_natCast, if_neg, hdrop, htake]
  · unfold initLibc
    rw [untilNull_append henv]
    dsimp only
    rw [pairsUntilZero_flatten (auxv_type_ne_zero value)]
  · rw [length_stackInit]
    omega

/-- **The start image**: the size error is reported, or the libc reads in the image
the arguments, the environment and the auxiliary values that were put there. -/
theorem start_image_decodes (args : List UInt64) {env : List UInt64} (henv : ∀ p ∈ env, p ≠ 0)
    (beyond : List UInt64) (value : AuxType → UInt64) :
    runHosted value ⟨args, env ++ 0 :: beyond⟩ = .error .tooManyVariables ∨
      ∃ call, runHosted value ⟨args, env ++ 0 :: beyond⟩ = .ok call ∧
        libcStartMain call = some ⟨args, env, auxv value⟩ ∧
          ∀ type, aux (auxv value) type.word.toNat = value type := by
  rw [runHosted_eq value henv]
  split
  · exact Or.inl rfl
  · exact Or.inr ⟨_, rfl, libcStartMain_stackInit henv value, aux_auxv value⟩

/-- Two arguments and one variable, with its user in a group: the image is built, and
read as it was meant. -/
theorem start_image_decodes_two :
    ∃ call, runHosted (System.value ⟨1000, 1000, 100, 100, 4096⟩)
          ⟨[0x1000, 0x1010], [0x2000, 0]⟩ = .ok call ∧
      libcStartMain call = some ⟨[0x1000, 0x1010], [0x2000],
        auxv (System.value ⟨1000, 1000, 100, 100, 4096⟩)⟩ ∧
      ∀ type, aux (auxv (System.value ⟨1000, 1000, 100, 100, 4096⟩)) type.word.toNat =
        System.value ⟨1000, 1000, 100, 100, 4096⟩ type := by
  have henv : ∀ p ∈ ([0x2000] : List UInt64), p ≠ 0 := by simp
  rcases start_image_decodes [0x1000, 0x1010] henv []
    (System.value ⟨1000, 1000, 100, 100, 4096⟩) with hlarge | hdecoded
  · -- 22 words are not too many
    rw [runHosted_eq _ henv, if_neg (by decide)] at hlarge
    cases hlarge
  · exact hdecoded

end ExecutionYengine
end AllvmTools
