import AllvmTools.Allmux.Entries
import AllvmTools.Library.CStrings

/-!
# The generated selection

`genMain` builds the body of `__select` block by block, moving its insertion
point; here the blocks are built, and run.

* `emitSelect` — the blocks for a list of cases, as the builder makes them.
* `emitSelect_eq` — where they end up.
* `select_emitSelect` — running them picks the first case whose name this is.
* `muxMain_eq` — and so does the program, for the last part of its name.
-/

namespace AllvmTools
namespace Allmux

open Library Library.CString Library.Paths

/-! ## Blocks -/

/-- How a block ends. -/
inductive Terminator where
  /-- `strncmp` of the name with the base name, and a conditional branch. -/
  | compare (base : Text) (chars : Nat) (matchBB contBB : Nat)
  /-- The call of a real main with that many arguments, and the return of its
  result, or of zero where it has none. -/
  | callMain (realMain : Text) (args : Nat) (isVoid : Bool)
  | ret (value : Int)
deriving DecidableEq, Repr

/-- A basic block, built so far. -/
structure Block where
  steps : List MuxCall
  terminator : Option Terminator
deriving DecidableEq, Repr

/-- `IRBuilder` with the function it builds. -/
structure Builder where
  blocks : List Block
  insertPoint : Nat
deriving DecidableEq, Repr

namespace Builder

/-- `BasicBlock::Create`. -/
def createBlock (b : Builder) : Builder × Nat :=
  ({ b with blocks := b.blocks ++ [⟨[], none⟩] }, b.blocks.length)

/-- `SetInsertPoint`. -/
def setInsertPoint (b : Builder) (block : Nat) : Builder :=
  { b with insertPoint := block }

/-- An instruction at the insertion point. -/
def emit (b : Builder) (step : MuxCall) : Builder :=
  { b with
    blocks := b.blocks.modify b.insertPoint fun block =>
      { block with steps := block.steps ++ [step] } }

/-- A terminator there. -/
def terminate (b : Builder) (terminator : Terminator) : Builder :=
  { b with
    blocks := b.blocks.modify b.insertPoint fun block =>
      { block with terminator := some terminator } }

end Builder

/-- The body of the loop over the entries. -/
def emitCase (b : Builder) (c : Case) : Builder :=
  let (b, matchBB) := b.createBlock
  let (b, contBB) := b.createBlock
  let b := b.terminate (.compare c.base (c.base.length + 1) matchBB contBB)
  let b := c.steps.foldl Builder.emit (b.setInsertPoint matchBB)
  let b := b.terminate (.callMain c.realMain c.args c.isVoid)
  b.setInsertPoint contBB

/-- The function with its entry block. -/
def Builder.entry : Builder :=
  ⟨[⟨[], none⟩], 0⟩

/-- The blocks of `__select`. -/
def emitSelect (cases : List Case) : List Block :=
  ((cases.foldl emitCase .entry).terminate (.ret (-1))).blocks

/-! ## Runs -/

/-- A handler registered with `atexit`: a destructor function, or one that a called
function registered itself. -/
inductive Handler where
  | dtor (name : Text)
  | other (id : Nat)
deriving DecidableEq, Repr

/-- How a program ends. -/
inductive Status where
  | returned (value : Int)
  | exited (status : Int)
deriving DecidableEq, Repr

/-- What the functions that are called do: `V` is what arguments are. -/
structure Callees (V : Type) where
  /-- The handlers a function registers itself, with those there before it. -/
  registers : Text → List Handler → List Nat
  /-- Whether `atexit` succeeds. -/
  accepts : Text → List Handler → Bool
  /-- The end of a main: its result, or a call of `exit`. -/
  main : Text → List V → Status

/-- A running process: the constructor functions called, and the stack of handlers. -/
structure Process where
  calls : List Text
  handlers : List Handler
deriving DecidableEq, Repr

/-- A finished run: the constructor functions called, in order; the main called after
them, with its arguments; how it ended; the handlers run then, in order. -/
structure Run (V : Type) where
  calls : List Text
  main : Option (Text × List V)
  status : Status
  atExit : List Handler
deriving DecidableEq, Repr

variable {V : Type}

/-- A call leaves the handlers that its function registered on the stack. -/
def Callees.pushed (env : Callees V) (name : Text) (handlers : List Handler) : List Handler :=
  (env.registers name handlers).map .other ++ handlers

/-- One step; the result of `atexit` is not looked at. -/
def Callees.step (env : Callees V) (p : Process) : MuxCall → Process
  | .callCtor name => ⟨p.calls ++ [name], env.pushed name p.handlers⟩
  | .registerDtor name =>
      if env.accepts name p.handlers then { p with handlers := .dtor name :: p.handlers } else p

def Callees.steps (env : Callees V) (p : Process) (steps : List MuxCall) : Process :=
  steps.foldl env.step p

/-- The result of a main without result is zero. -/
def Status.orZero (isVoid : Bool) : Status → Status
  | returned value => returned (if isVoid then 0 else value)
  | exited status => exited status

/-- The call of a real main, to the end of the process. -/
def Callees.finish (env : Callees V) (args : List V) (p : Process) (realMain : Text)
    (count : Nat) (isVoid : Bool) : Run V where
  calls := p.calls
  main := some (realMain, args.take count)
  status := (env.main realMain (args.take count)).orZero isVoid
  atExit := env.pushed realMain p.handlers

/-- Running the blocks from one of them on; `none` where there is no block, or one
without terminator, or the fuel is used up. -/
def select (env : Callees V) (name : Text) (args : List V) (blocks : List Block) :
    Nat → Nat → Process → Option (Run V)
  | 0, _, _ => none
  | fuel + 1, position, p =>
      match blocks[position]? with
      | none => none
      | some block =>
          let p := env.steps p block.steps
          match block.terminator with
          | none => none
          | some (.compare base chars matchBB contBB) =>
              if strncmp chars name base = 0 then select env name args blocks fuel matchBB p
              else select env name args blocks fuel contBB p
          | some (.callMain realMain count isVoid) =>
              some (env.finish args p realMain count isVoid)
          | some (.ret value) => some ⟨p.calls, none, .returned value, p.handlers⟩

/-- `basename` of the multiplexer's main. -/
def basename (name : Text) : Text :=
  afterLast slash name

/-- `main`: the selection by the last part of the name, in a new process. -/
def muxMain (env : Callees V) (cases : List Case) (argv0 : CString) (args : List V) :
    Option (Run V) :=
  let blocks := emitSelect cases
  select env (basename argv0.text) args blocks blocks.length 0 ⟨[], []⟩

/-! ## Where the blocks end up -/

/-- The blocks from the first comparison of these cases on, at this position. -/
def chain : Nat → List Case → List Block
  | _, [] => [⟨[], some (.ret (-1))⟩]
  | position, c :: rest =>
      ⟨[], some (.compare c.base (c.base.length + 1) (position + 1) (position + 2))⟩ ::
        ⟨c.steps, some (.callMain c.realMain c.args c.isVoid)⟩ :: chain (position + 2) rest

theorem length_chain (position : Nat) (cases : List Case) :
    (chain position cases).length = 2 * cases.length + 1 := by
  induction cases generalizing position with
  | nil => rfl
  | cons c rest ih =>
      rw [chain, List.length_cons, List.length_cons, ih, List.length_cons]
      omega

namespace Builder

theorem modify_length {α : Type} (done rest : List α) (a : α) (f : α → α) :
    (done ++ a :: rest).modify done.length f = done ++ f a :: rest := by
  induction done with
  | nil => rfl
  | cons b done ih =>
      rw [List.cons_append, List.length_cons, List.modify_succ_cons, ih, List.cons_append]

theorem emit_at (done rest : List Block) (block : Block) (step : MuxCall) :
    emit ⟨done ++ block :: rest, done.length⟩ step =
      ⟨done ++ { block with steps := block.steps ++ [step] } :: rest, done.length⟩ := by
  unfold emit
  rw [modify_length]

theorem foldl_emit_at (steps : List MuxCall) (done rest : List Block) (block : Block) :
    steps.foldl emit ⟨done ++ block :: rest, done.length⟩ =
      ⟨done ++ { block with steps := block.steps ++ steps } :: rest, done.length⟩ := by
  induction steps generalizing block with
  | nil => simp
  | cons step steps ih =>
      rw [List.foldl_cons, emit_at, ih]
      simp

theorem terminate_at (done rest : List Block) (block : Block) (terminator : Terminator) :
    terminate ⟨done ++ block :: rest, done.length⟩ terminator =
      ⟨done ++ { block with terminator := some terminator } :: rest, done.length⟩ := by
  unfold terminate
  rw [modify_length]

end Builder

/-- One round of the loop: the block at the insertion point is closed, and the new
insertion point is an empty block behind all others. -/
theorem emitCase_eq (done : List Block) (c : Case) :
    emitCase ⟨done ++ [⟨[], none⟩], done.length⟩ c =
      ⟨done ++ [⟨[], some (.compare c.base (c.base.length + 1) (done.length + 1)
          (done.length + 2))⟩, ⟨c.steps, some (.callMain c.realMain c.args c.isVoid)⟩] ++
        [⟨[], none⟩], done.length + 2⟩ := by
  let compare : Block :=
    ⟨[], some (.compare c.base (c.base.length + 1) (done.length + 1) (done.length + 2))⟩
  have hopen : (⟨done ++ [⟨[], none⟩] ++ [⟨[], none⟩] ++ [⟨[], none⟩], done.length⟩ : Builder) =
      ⟨done ++ ⟨[], none⟩ :: [⟨[], none⟩, ⟨[], none⟩], done.length⟩ := by
    simp
  have hmatch : (⟨done ++ compare :: [⟨[], none⟩, ⟨[], none⟩], done.length + 1⟩ : Builder) =
      ⟨(done ++ [compare]) ++ ⟨[], none⟩ :: [⟨[], none⟩], (done ++ [compare]).length⟩ := by
    simp
  have hlength : (done ++ [⟨[], none⟩] ++ [⟨[], none⟩] : List Block).length = done.length + 2 := by
    simp
  unfold emitCase Builder.createBlock
  dsimp only
  rw [hlength, List.length_append, List.length_singleton, hopen, Builder.terminate_at]
  show (Builder.terminate (List.foldl Builder.emit
    ⟨done ++ compare :: [⟨[], none⟩, ⟨[], none⟩], done.length + 1⟩ c.steps) _).setInsertPoint _ = _
  rw [hmatch, Builder.foldl_emit_at, Builder.terminate_at]
  simp [Builder.setInsertPoint, compare]

theorem foldl_emitCase (done : List Block) (cases : List Case) :
    ((cases.foldl emitCase ⟨done ++ [⟨[], none⟩], done.length⟩).terminate (.ret (-1))).blocks =
      done ++ chain done.length cases := by
  induction cases generalizing done with
  | nil =>
      show (Builder.terminate ⟨done ++ ⟨[], none⟩ :: [], done.length⟩ _).blocks = _
      rw [Builder.terminate_at]
      rfl
  | cons c rest ih =>
      rw [List.foldl_cons, emitCase_eq]
      have hrest := ih (done ++ [⟨[], some (.compare c.base (c.base.length + 1) (done.length + 1)
        (done.length + 2))⟩, ⟨c.steps, some (.callMain c.realMain c.args c.isVoid)⟩])
      rw [List.length_append] at hrest
      rw [chain]
      simpa using hrest

theorem emitSelect_eq (cases : List Case) : emitSelect cases = chain 0 cases := by
  have hchain := foldl_emitCase [] cases
  simpa [emitSelect, Builder.entry] using hchain

/-! ## Running them -/

/-- A run of the selected case. -/
def Case.run (c : Case) (env : Callees V) (args : List V) : Run V :=
  env.finish args (env.steps ⟨[], []⟩ c.steps) c.realMain c.args c.isVoid

/-- The first case of this name is run; without one nothing is called. -/
def dispatch (env : Callees V) (name : Text) (args : List V) : List Case → Run V
  | [] => ⟨[], none, .returned (-1), []⟩
  | c :: rest => if name = c.base then c.run env args else dispatch env name args rest

theorem select_chain (env : Callees V) {name : Text} (hname : (0 : UInt8) ∉ name) (args : List V)
    (done : List Block) {cases : List Case} (hcases : ∀ c ∈ cases, (0 : UInt8) ∉ c.base)
    {fuel : Nat} (hfuel : cases.length < fuel) :
    select env name args (done ++ chain done.length cases) fuel done.length ⟨[], []⟩ =
      some (dispatch env name args cases) := by
  induction cases generalizing done fuel with
  | nil =>
      obtain ⟨fuel, rfl⟩ := Nat.exists_eq_succ_of_ne_zero (Nat.ne_of_gt hfuel)
      rw [select]
      simp [chain, Callees.steps, dispatch]
  | cons c rest ih =>
      rw [List.length_cons] at hfuel
      obtain ⟨fuel, rfl⟩ : ∃ f, fuel = f + 2 := ⟨fuel - 2, by omega⟩
      have hbase := hcases c List.mem_cons_self
      rw [chain, select, List.getElem?_append_right (Nat.le_refl _), Nat.sub_self]
      simp only [List.getElem?_cons_zero, Callees.steps, List.foldl_nil]
      have hcompare := strncmp_eq_zero_iff hname hbase (Nat.lt_succ_self _)
      rw [dispatch]
      by_cases hsame : name = c.base
      · -- the block behind the comparison calls the main
        rw [if_pos (hcompare.mpr hsame), if_pos hsame, select, List.getElem?_append_right (by omega),
          Nat.add_sub_cancel_left]
        rfl
      · rw [if_neg (mt hcompare.mp hsame), if_neg hsame]
        have hrest := ih (done ++ [⟨[], some (.compare c.base (c.base.length + 1) (done.length + 1)
          (done.length + 2))⟩, ⟨c.steps, some (.callMain c.realMain c.args c.isVoid)⟩])
          (fun c h => hcases c (List.mem_cons_of_mem _ h)) (show rest.length < fuel + 1 by omega)
        simpa using hrest

/-- The blocks that are built select the first case of the name. -/
theorem select_emitSelect (env : Callees V) {name : Text} (hname : (0 : UInt8) ∉ name)
    (args : List V) {cases : List Case} (hcases : ∀ c ∈ cases, (0 : UInt8) ∉ c.base) :
    select env name args (emitSelect cases) (emitSelect cases).length 0 ⟨[], []⟩ =
      some (dispatch env name args cases) := by
  have hlength : cases.length < (emitSelect cases).length := by
    rw [emitSelect_eq, length_chain]
    omega
  have hrun := select_chain env hname args [] hcases hlength
  rw [List.nil_append, List.length_nil, ← emitSelect_eq] at hrun
  exact hrun

theorem muxMain_eq (env : Callees V) {cases : List Case} (hcases : ∀ c ∈ cases, (0 : UInt8) ∉ c.base)
    (argv0 : CString) (args : List V) :
    muxMain env cases argv0 args = some (dispatch env (basename argv0.text) args cases) :=
  select_emitSelect env (not_mem_afterLast argv0.plain) args hcases

end Allmux
end AllvmTools
