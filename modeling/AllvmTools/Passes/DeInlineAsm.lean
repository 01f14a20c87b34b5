import Mathlib.Data.List.Nodup
import AllvmTools.Library.ListsInStep
import AllvmTools.Passes.InlineAsm

/-!
# Replacing inline assembly

The pass `DeInlineAsm` replaces byte swaps and compiler barriers.  It visits all calls,
puts the replacement before the call and redirects its uses at once, and removes the
calls at the end.

* `visit_eq` — the module after some instructions were visited.
* `run_eq` — all in all, each replaced call gives way to its replacement.
* `preservesMeaning_iff` — that preserves the meaning of a module, just where its byte
  swaps have one argument, an integer, and a result of its type.
* `second_output_is_lost` — a swap of one operand that passes another one through.
-/

namespace AllvmTools
namespace Passes

open Library Library.LittleEndian

/-! ## Modules -/

/-- What an instruction uses: the result of another one, or something else. -/
inductive Value where
  | result (id : Nat)
  | other (code : Nat)
deriving DecidableEq, Repr

inductive AtomicOrdering where
  | acquire
  | release
  | acquireRelease
  | sequentiallyConsistent
deriving DecidableEq, Repr

inductive SynchronizationScope where
  | singleThread
  | crossThread
deriving DecidableEq, Repr

/-- What an instruction does.  `bswap` calls the function that `getDeclaration` returns
for these types. -/
inductive Op where
  | asmCall (asm : InlineAsm) (args : List Value)
  | fence (ordering : AtomicOrdering) (scope : SynchronizationScope)
  | bswap (types : List ScalarType) (arg : Value)
  | other (code : Nat) (operands : List Value)
deriving DecidableEq, Repr

/-- An instruction and its identity. -/
structure Instruction where
  id : Nat
  op : Op
deriving DecidableEq, Repr

abbrev BasicBlock := List Instruction

/-- The blocks of all functions, in order. -/
structure Module where
  blocks : List BasicBlock
  unique : (blocks.flatten.map Instruction.id).Nodup

def Value.redirect (f : Nat → Nat) : Value → Value
  | result id => .result (f id)
  | other code => .other code

def Op.redirect (f : Nat → Nat) : Op → Op
  | asmCall asm args => .asmCall asm (args.map (Value.redirect f))
  | fence ordering scope => .fence ordering scope
  | bswap types arg => .bswap types (arg.redirect f)
  | other code operands => .other code (operands.map (Value.redirect f))

def Instruction.redirect (f : Nat → Nat) (I : Instruction) : Instruction :=
  ⟨I.id, I.op.redirect f⟩

def Op.operands : Op → List Value
  | asmCall _ args => args
  | fence _ _ => []
  | bswap _ arg => [arg]
  | other _ operands => operands

/-- The instructions whose results are used. -/
def Op.uses (op : Op) : List Nat :=
  op.operands.filterMap fun value =>
    match value with
    | .result id => some id
    | .other _ => none

/-! ## The pass -/

/-- `matches`. -/
def matchPieces (splitString args : List Text) : Bool :=
  if splitString.length ≠ args.length then false
  else (List.range splitString.length).all fun i => splitString[i]? == args[i]?

def isByteSwap (asmString : Text) : Bool :=
  let pieces := asmPieces asmString
  matchPieces pieces [ascii "bswap", ascii "$0"] ||
    matchPieces pieces [ascii "bswapl", ascii "$0"] ||
      matchPieces pieces [ascii "bswapq", ascii "$0"]

/-- The replacement in `visitCallInst`; the outer `none` is the assertion on the first
argument. -/
def replacement : Op → Option (Option Op)
  | .asmCall asm args =>
      if asm.asmString = [] then
        if asm.constraintString = barrierConstraints then
          some (some (.fence .acquireRelease .singleThread))
        else
          some none
      else if isByteSwap asm.asmString then
        match args with
        | [] => none
        | arg :: _ => some (some (.bswap asm.type.params arg))
      else
        some none
  | _ => some none

/-- The module as it is changed, and `toRemove`. -/
structure VisitState where
  blocks : List BasicBlock
  toRemove : List Nat

def insertBefore (new : Instruction) (id : Nat) (blocks : List BasicBlock) : List BasicBlock :=
  blocks.map fun b => b.flatMap fun I => if I.id = id then [new, I] else [I]

def replaceAllUsesWith (id new : Nat) (blocks : List BasicBlock) : List BasicBlock :=
  blocks.map fun b => b.map (Instruction.redirect fun n => if n = id then new else n)

/-- `visitCallInst`; the identities of new instructions start at `base`. -/
def visitCallInst (base : Nat) (st : VisitState) (id : Nat) : Option VisitState :=
  match st.blocks.flatten.find? fun I => I.id == id with
  | none => some st
  | some I =>
      match replacement I.op with
      | none => none
      | some none => some st
      | some (some op) =>
          let blocks := insertBefore ⟨base + id, op⟩ id st.blocks
          some ⟨replaceAllUsesWith id (base + id) blocks, st.toRemove ++ [id]⟩

/-- `removeInstructions`. -/
def removeInstructions (st : VisitState) : List BasicBlock :=
  st.blocks.map fun b => b.filter fun I => !st.toRemove.contains I.id

/-- The identities that occur in an instruction. -/
def Instruction.ids (I : Instruction) : List Nat :=
  I.id :: I.op.uses

/-- An identity above all that occur. -/
def freshId (blocks : List BasicBlock) : Nat :=
  (blocks.flatten.flatMap Instruction.ids).foldr max 0 + 1

/-- `DeInlineAsm::run`; instructions that are put before the one that is visited are
not visited. -/
def run (blocks : List BasicBlock) : Option (List BasicBlock) :=
  ((blocks.flatten.map Instruction.id).foldlM (visitCallInst (freshId blocks)) ⟨blocks, []⟩).map
    removeInstructions

/-! ## The property -/

/-- The values are of these types. -/
def Fit (values : List Nat) (types : List ScalarType) : Prop :=
  List.Forall₂ (fun v type => ∀ bits ∈ type.registerBits, v < 2 ^ bits) values types

/-- The new instruction is well typed and has a result that the assembly may have: an
ordering fence for a compiler barrier, and the swap of an argument otherwise. -/
def Refines (target : Target) (f : Nat → Nat) (asm : InlineAsm) (args : List Value) : Op → Prop
  | .fence ordering scope =>
      asm.asmString = [] ∧ asm.constraintString = barrierConstraints ∧
        ordering = .acquireRelease ∧ scope = .singleThread ∧ asm.type.result = .void
  | .bswap types arg =>
      ∃ (i : Nat) (value : Value) (bits : Nat), args[i]? = some value ∧ arg = value.redirect f ∧
        asm.type.params[i]? = some (ScalarType.int bits) ∧ types = [.int bits] ∧ bits % 16 = 0 ∧
          asm.type.result = .scalar (.int bits) ∧
            ∀ values, Fit values asm.type.params → ∀ v, values[i]? = some v →
              Computes target asm values [byteSwap (bits / 8) v]
  | _ => False

/-- What stands in the place of an instruction: itself, with its uses redirected, or a
replacement of its own identity. -/
def Corresponds (target : Target) (f : Nat → Nat) (I I' : Instruction) : Prop :=
  (f I.id = I.id ∧ I' = I.redirect f) ∨
    (f I.id ≠ I.id ∧ I'.id = f I.id ∧
      ∃ asm args, I.op = .asmCall asm args ∧ Refines target f asm args I'.op)

/-- The second module is the first one with some calls replaced; `f` says which
instruction is used instead of another one. -/
structure Preserved (target : Target) (f : Nat → Nat) (m m' : Module) : Prop where
  inPlace : List.Forall₂ (List.Forall₂ (Corresponds target f)) m.blocks m'.blocks
  redirected : ∀ I ∈ m.blocks.flatten, f I.id ≠ I.id → ∀ I' ∈ m'.blocks.flatten,
    I.id ∉ I'.op.uses
  fresh : ∀ I ∈ m.blocks.flatten, f I.id ≠ I.id → ∀ J ∈ m.blocks.flatten, f I.id ∉ J.ids

/-- The pass preserves the meaning of the module, and a second run changes nothing. -/
def PreservesMeaning (target : Target) (m : Module) : Prop :=
  ∃ m' f, run m.blocks = some m'.blocks ∧ Preserved target f m m' ∧
    run m'.blocks = some m'.blocks

/-- One argument, an integer, and a result of its type. -/
def SimpleSwap (asm : InlineAsm) : Prop :=
  ∃ bits, asm.type.result = .scalar (.int bits) ∧ asm.type.params = [.int bits]

/-- The calls of inline assembly are valid, as far as they are replaced. -/
def ValidCalls (target : Target) (m : Module) : Prop :=
  ∀ I ∈ m.blocks.flatten, ∀ asm args, I.op = .asmCall asm args →
    (isByteSwap asm.asmString = true ∨
      asm.asmString = [] ∧ asm.constraintString = barrierConstraints) →
      asm.Valid target ∧ args.length = asm.type.params.length

/-! ## Redirecting -/

/-- An instruction of `S` is replaced by the one at the same distance from `base`. -/
def redirectTo (base : Nat) (S : List Nat) (n : Nat) : Nat :=
  if n ∈ S then base + n else n

theorem redirect_nil (base : Nat) (op : Op) : op.redirect (redirectTo base []) = op := by
  have hvalue : ∀ value : Value, value.redirect (redirectTo base []) = value := by
    intro value
    cases value with
    | result id => rfl
    | other code => rfl
  have hvalues : Value.redirect (redirectTo base []) = id := funext hvalue
  cases op with
  | asmCall asm args => rw [Op.redirect, hvalues, List.map_id]
  | fence ordering scope => rfl
  | bswap types arg => rw [Op.redirect, hvalue]
  | other code operands => rw [Op.redirect, hvalues, List.map_id]

theorem redirect_redirect (f g : Nat → Nat) (op : Op) :
    (op.redirect f).redirect g = op.redirect (g ∘ f) := by
  have hvalue : ∀ value : Value, (value.redirect f).redirect g = value.redirect (g ∘ f) := by
    intro value
    cases value with
    | result id => rfl
    | other code => rfl
  cases op with
  | asmCall asm args =>
      simp only [Op.redirect, List.map_map]
      congr 2
      exact funext hvalue
  | fence ordering scope => rfl
  | bswap types arg => simp only [Op.redirect, hvalue]
  | other code operands =>
      simp only [Op.redirect, List.map_map]
      congr 2
      exact funext hvalue

/-- One more instruction is replaced. -/
theorem redirectTo_append {base : Nat} (S : List Nat) {n : Nat} (hbase : n < base) :
    (fun m => if m = n then base + n else m) ∘ redirectTo base S = redirectTo base (S ++ [n]) := by
  funext m
  unfold redirectTo
  rw [Function.comp_apply]
  by_cases hm : m ∈ S
  · rw [if_pos hm, if_neg (by omega), if_pos (List.mem_append_left _ hm)]
  · rw [if_neg hm]
    by_cases hmn : m = n
    · rw [if_pos hmn, if_pos (List.mem_append_right _ (List.mem_singleton.mpr hmn)), hmn]
    · rw [if_neg hmn, if_neg]
      rw [List.mem_append, List.mem_singleton]
      rintro (h | h)
      · exact hm h
      · exact hmn h

/-- The uses of an operation that was redirected. -/
theorem uses_redirect (f : Nat → Nat) (op : Op) : (op.redirect f).uses = op.uses.map f := by
  have hoperands : (op.redirect f).operands = op.operands.map (Value.redirect f) := by
    cases op with
    | asmCall asm args => rfl
    | fence ordering scope => rfl
    | bswap types arg => rfl
    | other code operands => rfl
  unfold Op.uses
  rw [hoperands, List.filterMap_map, List.map_filterMap]
  apply congrArg (List.filterMap · op.operands)
  funext value
  cases value with
  | result id => rfl
  | other code => rfl

/-- What is replaced does not depend on what is used. -/
theorem replacement_redirect (f : Nat → Nat) (op : Op) :
    replacement (op.redirect f) = (replacement op).map (Option.map (Op.redirect f)) := by
  cases op with
  | asmCall asm args =>
      simp only [Op.redirect, replacement]
      split
      · split
        · rfl
        · rfl
      · split
        · cases args with
          | nil => rfl
          | cons arg rest => rfl
        · rfl
  | fence ordering scope => rfl
  | bswap types arg => rfl
  | other code operands => rfl

/-! ## Visiting -/

/-- The replacement, where there is one. -/
def newOp (op : Op) : Option Op :=
  (replacement op).join

/-- What stands for an instruction once those of `S` were visited and replaced. -/
def stage (base : Nat) (S : List Nat) (I : Instruction) : List Instruction :=
  if I.id ∈ S then
    [⟨base + I.id, ((newOp I.op).getD I.op).redirect (redirectTo base S)⟩,
      I.redirect (redirectTo base S)]
  else
    [I.redirect (redirectTo base S)]

/-- The blocks at that stage. -/
def stageBlocks (base : Nat) (S : List Nat) (blocks : List BasicBlock) : List BasicBlock :=
  blocks.map fun b => b.flatMap (stage base S)

section Visit

variable {base : Nat} {S : List Nat} {blocks : List BasicBlock}

/-- Two instructions with one identity are one. -/
theorem eq_of_id (hunique : (blocks.flatten.map Instruction.id).Nodup) {I J : Instruction}
    (hI : I ∈ blocks.flatten) (hJ : J ∈ blocks.flatten) (hid : I.id = J.id) : I = J :=
  List.inj_on_of_nodup_map hunique hI hJ hid

theorem mem_stageBlocks {J : Instruction} :
    J ∈ (stageBlocks base S blocks).flatten ↔ ∃ I ∈ blocks.flatten, J ∈ stage base S I := by
  unfold stageBlocks
  simp only [List.mem_flatten, List.mem_map]
  constructor
  · rintro ⟨_, ⟨b, hb, rfl⟩, hJ⟩
    obtain ⟨I, hI, hJ⟩ := List.mem_flatMap.mp hJ
    exact ⟨I, ⟨b, hb, hI⟩, hJ⟩
  · rintro ⟨I, ⟨b, hb, hI⟩, hJ⟩
    exact ⟨_, ⟨b, hb, rfl⟩, List.mem_flatMap.mpr ⟨I, hI, hJ⟩⟩

/-- The identities at a stage. -/
theorem id_of_mem_stage {I J : Instruction} (h : J ∈ stage base S I) :
    J = I.redirect (redirectTo base S) ∨ J.id = base + I.id := by
  unfold stage at h
  split at h
  · rcases List.mem_cons.mp h with rfl | h
    · exact Or.inr rfl
    · exact Or.inl (List.mem_singleton.mp h)
  · exact Or.inl (List.mem_singleton.mp h)

theorem redirect_mem_stage (I : Instruction) : I.redirect (redirectTo base S) ∈ stage base S I := by
  unfold stage
  split
  · exact List.mem_cons_of_mem _ List.mem_cons_self
  · exact List.mem_cons_self

theorem find?_eq_some_of_unique {α : Type} {l : List α} {p : α → Bool} {a : α} (ha : a ∈ l)
    (hp : p a = true) (hunique : ∀ b ∈ l, p b = true → b = a) : l.find? p = some a := by
  cases hfind : l.find? p with
  | none => exact absurd hp (List.find?_eq_none.mp hfind a ha)
  | some b => rw [hunique b (List.mem_of_find?_eq_some hfind) (List.find?_some hfind)]

/-- The instruction that is visited is found again. -/
theorem find?_stageBlocks (hunique : (blocks.flatten.map Instruction.id).Nodup)
    (hbase : ∀ I ∈ blocks.flatten, I.id < base) {I : Instruction} (hI : I ∈ blocks.flatten) :
    (stageBlocks base S blocks).flatten.find? (fun J => J.id == I.id) =
      some (I.redirect (redirectTo base S)) := by
  have hmem : I.redirect (redirectTo base S) ∈ (stageBlocks base S blocks).flatten :=
    mem_stageBlocks.mpr ⟨I, hI, redirect_mem_stage I⟩
  apply find?_eq_some_of_unique hmem (beq_self_eq_true I.id)
  intro J hJ hid
  obtain ⟨I', hI', hJ⟩ := mem_stageBlocks.mp hJ
  rcases id_of_mem_stage hJ with rfl | hnew
  · obtain rfl := eq_of_id hunique hI' hI (eq_of_beq hid)
    rfl
  · have hlt := hbase I hI
    have hid := eq_of_beq hid
    omega

/-- Putting the replacement in and redirecting the uses leads to the next stage. -/
theorem stageBlocks_append (hunique : (blocks.flatten.map Instruction.id).Nodup)
    (hbase : ∀ I ∈ blocks.flatten, I.id < base) {I : Instruction} (hI : I ∈ blocks.flatten)
    (hnew : I.id ∉ S) {op : Op} (hop : newOp I.op = some op) :
    replaceAllUsesWith I.id (base + I.id)
        (insertBefore ⟨base + I.id, op.redirect (redirectTo base S)⟩ I.id
          (stageBlocks base S blocks)) =
      stageBlocks base (S ++ [I.id]) blocks := by
  have hcomp := redirectTo_append S (hbase I hI)
  unfold replaceAllUsesWith insertBefore stageBlocks
  rw [List.map_map, List.map_map]
  apply List.map_congr_left
  intro b hb
  rw [Function.comp_apply, Function.comp_apply, List.flatMap_assoc, List.map_flatMap]
  apply List.flatMap_congr
  intro J hJ
  have hJ : J ∈ blocks.flatten := List.mem_flatten.mpr ⟨b, hb, hJ⟩
  have hfar : base + J.id ≠ I.id := by
    have hlt := hbase I hI
    omega
  by_cases hid : J.id = I.id
  · obtain rfl := eq_of_id hunique hJ hI hid
    have hstage : J.id ∈ S ++ [J.id] := List.mem_append_right _ List.mem_cons_self
    unfold stage
    rw [if_neg hnew, if_pos hstage, hop]
    simp [Instruction.redirect, redirect_redirect, hcomp]
  · have hstage : J.id ∈ S ++ [I.id] ↔ J.id ∈ S := by
      rw [List.mem_append, List.mem_singleton]
      exact or_iff_left hid
    unfold stage
    by_cases hS : J.id ∈ S
    · rw [if_pos hS, if_pos (hstage.mpr hS)]
      simp [Instruction.redirect, redirect_redirect, hcomp, hid, hfar]
    · rw [if_neg hS, if_neg (mt hstage.mp hS)]
      simp [Instruction.redirect, redirect_redirect, hcomp, hid]

/-- Visiting one instruction. -/
theorem visitCallInst_eq (hunique : (blocks.flatten.map Instruction.id).Nodup)
    (hbase : ∀ I ∈ blocks.flatten, I.id < base) {I : Instruction} (hI : I ∈ blocks.flatten)
    (hnew : I.id ∉ S) :
    visitCallInst base ⟨stageBlocks base S blocks, S⟩ I.id =
      (replacement I.op).map fun op =>
        if op.isSome then ⟨stageBlocks base (S ++ [I.id]) blocks, S ++ [I.id]⟩
        else ⟨stageBlocks base S blocks, S⟩ := by
  unfold visitCallInst
  rw [find?_stageBlocks hunique hbase hI]
  dsimp only
  rw [show (I.redirect (redirectTo base S)).op = I.op.redirect (redirectTo base S) from rfl,
    replacement_redirect]
  cases hreplacement : replacement I.op with
  | none => rfl
  | some op =>
      cases op with
      | none => rfl
      | some op =>
          have hop : newOp I.op = some op := by
            rw [newOp, hreplacement]
            rfl
          simp only [Option.map_some, Option.isSome_some, if_true]
          rw [stageBlocks_append hunique hbase hI hnew hop]

/-- The instructions that are replaced. -/
def replacedIds (Is : List Instruction) : List Nat :=
  (Is.filter fun I => (newOp I.op).isSome).map Instruction.id

/-- **Visiting**: where no assertion fails, the replaced instructions are those that
were visited and have a replacement. -/
theorem visit_eq (hunique : (blocks.flatten.map Instruction.id).Nodup)
    (hbase : ∀ I ∈ blocks.flatten, I.id < base) {Is : List Instruction}
    (hIs : ∀ I ∈ Is, I ∈ blocks.flatten) (hnodup : (Is.map Instruction.id).Nodup)
    (hnew : ∀ I ∈ Is, I.id ∉ S) :
    (Is.map Instruction.id).foldlM (visitCallInst base) ⟨stageBlocks base S blocks, S⟩ =
      if ∀ I ∈ Is, (replacement I.op).isSome = true then
        some ⟨stageBlocks base (S ++ replacedIds Is) blocks, S ++ replacedIds Is⟩
      else none := by
  induction Is generalizing S with
  | nil => simp [replacedIds]
  | cons I rest ih =>
      rw [List.map_cons, List.nodup_cons] at hnodup
      rw [List.map_cons, List.foldlM_cons,
        visitCallInst_eq hunique hbase (hIs I List.mem_cons_self) (hnew I List.mem_cons_self)]
      have hrest := fun J hJ => hIs J (List.mem_cons_of_mem I hJ)
      have hlater := fun J hJ => hnew J (List.mem_cons_of_mem I hJ)
      cases hreplacement : replacement I.op with
      | none =>
          rw [if_neg]
          · rfl
          · intro h
            have hsome := h I List.mem_cons_self
            rw [hreplacement] at hsome
            cases hsome
      | some op =>
          have hall : (∀ J ∈ I :: rest, (replacement J.op).isSome = true) ↔
              ∀ J ∈ rest, (replacement J.op).isSome = true := by
            rw [List.forall_mem_cons, hreplacement]
            exact and_iff_right rfl
          rw [if_congr hall rfl rfl]
          cases op with
          | none =>
              have hids : replacedIds (I :: rest) = replacedIds rest := by
                unfold replacedIds
                rw [List.filter_cons_of_neg (by simp [newOp, hreplacement])]
              rw [hids]
              exact ih hrest hnodup.2 hlater
          | some op =>
              have hids : replacedIds (I :: rest) = I.id :: replacedIds rest := by
                unfold replacedIds
                rw [List.filter_cons_of_pos (by simp [newOp, hreplacement]), List.map_cons]
              rw [hids, show S ++ I.id :: replacedIds rest = S ++ [I.id] ++ replacedIds rest from
                List.append_cons ..]
              refine ih hrest hnodup.2 ?_
              intro J hJ hS
              rcases List.mem_append.mp hS with hS | hS
              · exact hlater J hJ hS
              · rw [← List.mem_singleton.mp hS] at hnodup
                exact hnodup.1 (List.mem_map_of_mem hJ)

/-- What an instruction becomes. -/
def replaceInstruction (base : Nat) (S : List Nat) (I : Instruction) : Instruction :=
  if I.id ∈ S then
    ⟨base + I.id, ((newOp I.op).getD I.op).redirect (redirectTo base S)⟩
  else
    I.redirect (redirectTo base S)

/-- Removing the instructions that were replaced. -/
theorem removeInstructions_stageBlocks (hS : ∀ n ∈ S, n < base) :
    removeInstructions ⟨stageBlocks base S blocks, S⟩ =
      blocks.map fun b => b.map (replaceInstruction base S) := by
  unfold removeInstructions stageBlocks
  rw [List.map_map]
  apply List.map_congr_left
  rintro b -
  rw [Function.comp_apply, List.filter_flatMap]
  induction b with
  | nil => rfl
  | cons I rest ih =>
      rw [List.flatMap_cons, ih, List.map_cons]
      have hstage : (stage base S I).filter (fun J => !S.contains J.id) =
          [replaceInstruction base S I] := by
        unfold stage replaceInstruction
        by_cases hI : I.id ∈ S
        · have hfar : base + I.id ∉ S := fun h => by
            have hlt := hS _ h
            omega
          rw [if_pos hI, if_pos hI]
          simp [Instruction.redirect, hI, hfar]
        · rw [if_neg hI, if_neg hI]
          simp [Instruction.redirect, hI]
      rw [hstage, List.singleton_append]

end Visit

/-! ## The whole pass -/

theorem le_foldr_max {n : Nat} {l : List Nat} (h : n ∈ l) : n ≤ l.foldr max 0 := by
  induction l with
  | nil => cases h
  | cons m rest ih =>
      rw [List.foldr_cons]
      rcases List.mem_cons.mp h with rfl | h
      · exact Nat.le_max_left _ _
      · exact Nat.le_trans (ih h) (Nat.le_max_right _ _)

theorem lt_freshId {blocks : List BasicBlock} {I : Instruction} (hI : I ∈ blocks.flatten) {n : Nat}
    (hn : n ∈ I.ids) : n < freshId blocks := by
  apply Nat.lt_succ_of_le
  exact le_foldr_max (List.mem_flatMap.mpr ⟨I, hI, hn⟩)

theorem id_lt_freshId {blocks : List BasicBlock} {I : Instruction} (hI : I ∈ blocks.flatten) :
    I.id < freshId blocks :=
  lt_freshId hI List.mem_cons_self

section Run

variable (m : Module)

/-- The instructions of the module that are replaced. -/
def Module.replaced : List Nat :=
  replacedIds m.blocks.flatten

/-- The instruction that is used instead. -/
def Module.redirected : Nat → Nat :=
  redirectTo (freshId m.blocks) m.replaced

/-- What stands in its place. -/
def Module.replace : Instruction → Instruction :=
  replaceInstruction (freshId m.blocks) m.replaced

variable {m}

theorem mem_replaced_iff {I : Instruction} (hI : I ∈ m.blocks.flatten) :
    I.id ∈ m.replaced ↔ (newOp I.op).isSome = true := by
  unfold Module.replaced replacedIds
  rw [List.mem_map]
  constructor
  · rintro ⟨J, hJ, hid⟩
    obtain ⟨hJ, hsome⟩ := List.mem_filter.mp hJ
    rwa [← eq_of_id m.unique hJ hI hid]
  · exact fun hsome => ⟨I, List.mem_filter.mpr ⟨hI, hsome⟩, rfl⟩

theorem lt_of_mem_replaced {n : Nat} (hn : n ∈ m.replaced) : n < freshId m.blocks := by
  obtain ⟨I, hI, rfl⟩ := List.mem_map.mp hn
  exact id_lt_freshId (List.mem_filter.mp hI).1

/-- **The pass**: where no assertion fails, every instruction is replaced or has its
uses redirected, in its place. -/
theorem run_eq : run m.blocks =
    if ∀ I ∈ m.blocks.flatten, (replacement I.op).isSome = true then
      some (m.blocks.map fun b => b.map m.replace)
    else none := by
  have hstart : stageBlocks (freshId m.blocks) [] m.blocks = m.blocks := by
    have hstage : stage (freshId m.blocks) [] = fun I => [I] := by
      funext I
      unfold stage Instruction.redirect
      rw [if_neg List.not_mem_nil, redirect_nil]
    unfold stageBlocks
    rw [hstage]
    simp
  have hvisit := @visit_eq (freshId m.blocks) [] m.blocks m.unique (fun I hI => id_lt_freshId hI)
    m.blocks.flatten (fun I hI => hI) m.unique (fun I _ => List.not_mem_nil)
  rw [hstart] at hvisit
  unfold run
  rw [hvisit]
  split
  · rw [Option.map_some, List.nil_append]
    exact congrArg some (removeInstructions_stageBlocks fun n hn => lt_of_mem_replaced hn)
  · rfl

end Run

/-! ## What is replaced -/

/-- The text of a barrier is no byte swap. -/
theorem ne_nil_of_isByteSwap {asmString : Text} (h : isByteSwap asmString = true) :
    asmString ≠ [] := by
  have hnil : isByteSwap [] = false := by decide
  intro hempty
  rw [hempty, hnil] at h
  cases h

/-- The two replacements. -/
theorem newOp_eq_some {op op' : Op} (h : newOp op = some op') :
    ∃ asm args, op = .asmCall asm args ∧
      (asm.asmString = [] ∧ asm.constraintString = barrierConstraints ∧
          op' = .fence .acquireRelease .singleThread ∨
        isByteSwap asm.asmString = true ∧ asm.asmString ≠ [] ∧
          ∃ arg rest, args = arg :: rest ∧ op' = .bswap asm.type.params arg) := by
  unfold newOp replacement at h
  split at h
  · next asm args =>
      refine ⟨asm, args, rfl, ?_⟩
      split at h
      · next hempty =>
          split at h
          · next hbarrier => exact Or.inl ⟨hempty, hbarrier, (Option.some.inj h).symm⟩
          · cases h
      · next hempty =>
          split at h
          · next hswap =>
              cases args with
              | nil => cases h
              | cons arg rest =>
                  exact Or.inr ⟨hswap, hempty, arg, rest, rfl, (Option.some.inj h).symm⟩
          · cases h
  · cases h

theorem newOp_byteSwap {asm : InlineAsm} {arg : Value} {rest : List Value}
    (hswap : isByteSwap asm.asmString = true) :
    newOp (.asmCall asm (arg :: rest)) = some (.bswap asm.type.params arg) := by
  have hempty := ne_nil_of_isByteSwap hswap
  simp [newOp, replacement, hempty, hswap]

/-- The assertion is on the arguments of byte swaps. -/
theorem isSome_replacement_iff (op : Op) : (replacement op).isSome = true ↔
    ∀ asm args, op = .asmCall asm args → isByteSwap asm.asmString = true → args ≠ [] := by
  constructor
  · rintro h asm args rfl hswap rfl
    have hempty := ne_nil_of_isByteSwap hswap
    simp [replacement, hempty, hswap] at h
  · intro h
    unfold replacement
    split
    · next asm args =>
        split
        · split
          · rfl
          · rfl
        · split
          · next hswap =>
              cases args with
              | nil => exact absurd rfl (h asm [] rfl hswap)
              | cons arg rest => rfl
          · rfl
    · rfl

/-- A replacement, and what has none, is not replaced. -/
theorem newOp_getD_redirect (f : Nat → Nat) {op : Op} (hop : (replacement op).isSome = true) :
    replacement (((newOp op).getD op).redirect f) = some none := by
  rw [replacement_redirect]
  cases hnew : newOp op with
  | none =>
      unfold newOp at hnew
      cases hreplacement : replacement op with
      | none =>
          rw [hreplacement] at hop
          cases hop
      | some op' =>
          rw [hreplacement] at hnew
          obtain rfl : op' = none := hnew
          rw [Option.getD_none, hreplacement]
          rfl
  | some op' =>
      obtain ⟨asm, args, -, ⟨-, -, rfl⟩ | ⟨-, -, arg, rest, -, rfl⟩⟩ := newOp_eq_some hnew
      · rfl
      · rfl

/-! ## The new module -/

section Result

variable {m : Module}

theorem op_replace {I : Instruction} (hI : I ∈ m.blocks.flatten) :
    (m.replace I).op = ((newOp I.op).getD I.op).redirect m.redirected := by
  unfold Module.replace replaceInstruction
  split
  · rfl
  · next hS =>
      rw [show I.id ∈ m.replaced ↔ _ from mem_replaced_iff hI, Bool.not_eq_true,
        Option.isSome_eq_false_iff, Option.isNone_iff_eq_none] at hS
      rw [hS]
      rfl

theorem id_replace (I : Instruction) : (m.replace I).id = m.redirected I.id := by
  unfold Module.replace replaceInstruction Module.redirected redirectTo
  split
  · rfl
  · rfl

theorem redirected_ne_iff (n : Nat) : m.redirected n ≠ n ↔ n ∈ m.replaced := by
  unfold Module.redirected redirectTo
  have hpos : 0 < freshId m.blocks := Nat.succ_pos _
  split
  · next hn => exact iff_of_true (by omega) hn
  · next hn => exact iff_of_false (fun h => h rfl) hn

/-- No use is redirected to an instruction that is replaced. -/
theorem redirected_notMem (n : Nat) : m.redirected n ∉ m.replaced := by
  unfold Module.redirected redirectTo
  split
  · intro h
    have hlt := lt_of_mem_replaced h
    omega
  · next hn => exact hn

theorem redirected_injOn {n n' : Nat} (hn : n < freshId m.blocks) (hn' : n' < freshId m.blocks)
    (h : m.redirected n = m.redirected n') : n = n' := by
  unfold Module.redirected redirectTo at h
  split at h
  · split at h
    · omega
    · omega
  · split at h
    · omega
    · exact h

theorem flatten_replace : (m.blocks.map fun b => b.map m.replace).flatten =
    m.blocks.flatten.map m.replace :=
  List.map_flatten.symm

variable (m)

/-- The module after the pass. -/
def Module.result : Module where
  blocks := m.blocks.map fun b => b.map m.replace
  unique := by
    rw [flatten_replace, List.map_map]
    have hids : Instruction.id ∘ m.replace = m.redirected ∘ Instruction.id :=
      funext fun I => id_replace I
    rw [hids, ← List.map_map]
    apply List.Nodup.map_on _ m.unique
    intro n hn n' hn' h
    obtain ⟨I, hI, rfl⟩ := List.mem_map.mp hn
    obtain ⟨J, hJ, rfl⟩ := List.mem_map.mp hn'
    exact redirected_injOn (id_lt_freshId hI) (id_lt_freshId hJ) h

variable {m}

/-- A second run changes nothing. -/
theorem run_result (hrun : ∀ I ∈ m.blocks.flatten, (replacement I.op).isSome = true) :
    run m.result.blocks = some m.result.blocks := by
  have hnone : ∀ I' ∈ m.result.blocks.flatten, replacement I'.op = some none := by
    intro I' hI'
    rw [Module.result, flatten_replace] at hI'
    obtain ⟨I, hI, rfl⟩ := List.mem_map.mp hI'
    rw [op_replace hI]
    exact newOp_getD_redirect _ (hrun I hI)
  have hreplaced : m.result.replaced = [] := by
    unfold Module.replaced replacedIds
    rw [List.map_eq_nil_iff, List.filter_eq_nil_iff]
    intro I' hI'
    simp [newOp, hnone I' hI']
  have hsame : m.result.replace = id := by
    funext I
    unfold Module.replace replaceInstruction Instruction.redirect
    rw [hreplaced, if_neg List.not_mem_nil, redirect_nil]
    rfl
  rw [run_eq, if_pos fun I' hI' => by rw [hnone I' hI']; rfl, hsame]
  simp

/-- Uses are redirected, to new identities. -/
theorem preserved_result {target : Target}
    (hcorresponds : ∀ I ∈ m.blocks.flatten, Corresponds target m.redirected I (m.replace I)) :
    Preserved target m.redirected m m.result := by
  refine ⟨?_, ?_, ?_⟩
  · unfold Module.result
    rw [List.forall₂_map_right_iff, List.forall₂_same]
    intro b hb
    rw [List.forall₂_map_right_iff, List.forall₂_same]
    exact fun I hI => hcorresponds I (List.mem_flatten.mpr ⟨b, hb, hI⟩)
  · intro I _ hreplaced I' hI' huse
    rw [Module.result, flatten_replace] at hI'
    obtain ⟨J, hJ, rfl⟩ := List.mem_map.mp hI'
    rw [op_replace hJ, uses_redirect] at huse
    obtain ⟨n, -, hn⟩ := List.mem_map.mp huse
    rw [redirected_ne_iff, ← hn] at hreplaced
    exact redirected_notMem n hreplaced
  · intro I _ hreplaced J hJ hmem
    have hlt := lt_freshId hJ hmem
    rw [redirected_ne_iff] at hreplaced
    rw [Module.redirected, redirectTo, if_pos hreplaced] at hlt
    omega

end Result

/-! ## Meaning -/

section Meaning

variable {target : Target} {m : Module}

/-- A simple swap is replaced by what it computes. -/
theorem refines_of_simpleSwap {asm : InlineAsm} {arg : Value} {rest : List Value}
    (f : Nat → Nat) (hvalid : asm.Valid target) (hempty : asm.asmString ≠ [])
    (hsimple : SimpleSwap asm) :
    Refines target f asm (arg :: rest) ((Op.bswap asm.type.params arg).redirect f) := by
  obtain ⟨bits, hresult, hparams⟩ := hsimple
  obtain ⟨hbits, hcomputes⟩ := computes_byteSwap hresult hparams hvalid hempty
  refine ⟨0, arg, bits, rfl, rfl, by rw [hparams]; rfl, hparams, ?_, hresult, ?_⟩
  · rcases hbits with rfl | rfl
    · rfl
    · rfl
  · intro values hfit v hv
    rw [hparams] at hfit
    obtain ⟨v', _, hlt, htail, rfl⟩ := List.forall₂_cons_right_iff.mp hfit
    obtain rfl := List.forall₂_nil_right_iff.mp htail
    cases hv
    apply hcomputes v
    apply hlt
    rcases hbits with rfl | rfl
    · rfl
    · rfl

theorem corresponds_replace (hvalid : ValidCalls target m)
    (hsimple : ∀ I ∈ m.blocks.flatten, ∀ asm args, I.op = .asmCall asm args →
      isByteSwap asm.asmString = true → SimpleSwap asm) {I : Instruction}
    (hI : I ∈ m.blocks.flatten) : Corresponds target m.redirected I (m.replace I) := by
  cases hnew : newOp I.op with
  | none =>
      have hkept : I.id ∉ m.replaced := by
        rw [mem_replaced_iff hI, hnew]
        exact Bool.false_ne_true
      left
      refine ⟨not_not.mp (mt (redirected_ne_iff I.id).mp hkept), ?_⟩
      unfold Module.replace replaceInstruction
      exact if_neg hkept
  | some op =>
      have hreplaced : I.id ∈ m.replaced := by
        rw [mem_replaced_iff hI, hnew]
        rfl
      right
      refine ⟨(redirected_ne_iff I.id).mpr hreplaced, id_replace I, ?_⟩
      obtain ⟨asm, args, hop, hcase⟩ := newOp_eq_some hnew
      refine ⟨asm, args, hop, ?_⟩
      rw [op_replace hI, hnew, Option.getD_some]
      rcases hcase with ⟨hempty, hbarrier, rfl⟩ | ⟨hswap, hempty, arg, rest, rfl, rfl⟩
      · have hcall := (hvalid I hI asm args hop (Or.inr ⟨hempty, hbarrier⟩)).1
        exact ⟨hempty, hbarrier, rfl, rfl, result_of_barrier hcall hbarrier⟩
      · exact refines_of_simpleSwap _ (hvalid I hI asm _ hop (Or.inl hswap)).1 hempty
          (hsimple I hI asm _ hop hswap)

/-- A module whose meaning is preserved has no other swaps. -/
theorem PreservesMeaning.simpleSwap (h : PreservesMeaning target m) {I : Instruction}
    (hI : I ∈ m.blocks.flatten) {asm : InlineAsm} {args : List Value}
    (hop : I.op = .asmCall asm args) (hswap : isByteSwap asm.asmString = true) :
    SimpleSwap asm := by
  obtain ⟨m', f, hrun, hpreserved, -⟩ := h
  rw [run_eq] at hrun
  split at hrun
  swap
  · cases hrun
  next hall =>
  have hblocks := Option.some.inj hrun
  have hargs := (isSome_replacement_iff I.op).mp (hall I hI) asm args hop hswap
  obtain ⟨arg, rest, rfl⟩ := List.exists_cons_of_ne_nil hargs
  have hnew : newOp I.op = some (.bswap asm.type.params arg) := by
    rw [hop]
    exact newOp_byteSwap hswap
  have hcorresponds : Corresponds target f I (m.replace I) := by
    have hinPlace := hpreserved.inPlace
    rw [← hblocks, List.forall₂_map_right_iff, List.forall₂_same] at hinPlace
    obtain ⟨b, hb, hIb⟩ := List.mem_flatten.mp hI
    have hblock := hinPlace b hb
    rw [List.forall₂_map_right_iff, List.forall₂_same] at hblock
    exact hblock I hIb
  rcases hcorresponds with ⟨-, hkept⟩ | ⟨-, -, asm', args', hop', hrefines⟩
  · -- the swap that was made has an identity of its own
    have hid := (@id_replace m I).symm.trans (congrArg Instruction.id hkept)
    have hreplaced : I.id ∈ m.replaced := by
      rw [mem_replaced_iff hI, hnew]
      rfl
    exact absurd hid ((redirected_ne_iff I.id).mpr hreplaced)
  · cases hop.symm.trans hop'
    rw [op_replace hI, hnew, Option.getD_some] at hrefines
    obtain ⟨_, _, bits, -, -, -, hparams, -, hresult, -⟩ := hrefines
    exact ⟨bits, hresult, hparams⟩

/-- **`DeInlineAsm`** preserves the meaning of a module, just where its byte swaps are
simple. -/
theorem preservesMeaning_iff (hvalid : ValidCalls target m) :
    PreservesMeaning target m ↔
      ∀ I ∈ m.blocks.flatten, ∀ asm args, I.op = .asmCall asm args →
        isByteSwap asm.asmString = true → SimpleSwap asm := by
  constructor
  · exact fun h I hI asm args hop hswap => h.simpleSwap hI hop hswap
  · intro hsimple
    have hall : ∀ I ∈ m.blocks.flatten, (replacement I.op).isSome = true := by
      intro I hI
      rw [isSome_replacement_iff]
      rintro asm args hop hswap rfl
      obtain ⟨_, -, hparams⟩ := hsimple I hI asm [] hop hswap
      have hlength := (hvalid I hI asm [] hop (Or.inl hswap)).2
      rw [hparams] at hlength
      cases hlength
    exact ⟨m.result, m.redirected, by rw [run_eq, if_pos hall]; rfl,
      preserved_result fun I hI => corresponds_replace hvalid hsimple hI, run_result hall⟩

end Meaning

/-! ## One output, and two -/

def general (kind : ConstraintKind) : Constraint :=
  ⟨kind, false, false, none, [ascii "r"]⟩

def tiedTo (n : Nat) : Constraint :=
  ⟨.input, false, false, some n, []⟩

def clobberOf (code : Text) : Constraint :=
  ⟨.clobber, false, false, none, [code]⟩

/-- Three constraint strings as LLVM reads them; operands are in registers. -/
def someTarget : Target where
  parseConstraints s :=
    if s = barrierConstraints then
      some [clobberOf (ascii "{memory}"), clobberOf (ascii "{dirflag}"),
        clobberOf (ascii "{fpsr}"), clobberOf (ascii "{flags}")]
    else if s = ascii "=r,0" then some [general .output, tiedTo 0]
    else if s = ascii "=r,=r,0,1" then
      some [general .output, general .output, tiedTo 0, tiedTo 1]
    else none
  admits c location := c.kind ≠ .clobber → location.isSome = true
  barrier := by
    intro cs hcs
    rw [if_pos rfl] at hcs
    cases hcs
    decide

def bswapText : Text :=
  ascii "bswap $0"

/-- `asm ("bswap %0" : "+r"(x))`. -/
def oneOutput : InlineAsm :=
  ⟨bswapText, ascii "=r,0", ⟨.scalar (.int 32), [.int 32]⟩⟩

/-- `asm ("bswap %0" : "+r"(x), "+r"(y))`. -/
def twoOutputs : InlineAsm :=
  ⟨bswapText, ascii "=r,=r,0,1", ⟨.struct [.int 32, .int 32], [.int 32, .int 32]⟩⟩

def barrierAsm : InlineAsm :=
  ⟨[], barrierConstraints, ⟨.void, []⟩⟩

/-- Each output in a register of its own, and an input where it is tied to. -/
theorem allocates_of_outputs {ops : List AsmOperand} {register : Nat → Nat}
    (hearly : ∀ o ∈ ops, o.constraint.isEarlyClobber = false)
    (houtput : ∀ k o, ops[k]? = some o → o.constraint.kind = .output → register k = k)
    (htied : ∀ k o n, ops[k]? = some o → o.constraint.matching = some n → register k = register n) :
    Allocates someTarget ops fun k => some (register k) := by
  refine ⟨fun _ _ _ _ => rfl, fun _ _ _ _ _ => rfl, ?_, ?_, ?_⟩
  · exact fun k o n ho hmatching => congrArg some (htied k o n ho hmatching)
  · intro k o k' o' r ho ho' hkind hkind' hr hr'
    have hsame := Option.some.inj (hr.trans hr'.symm)
    rwa [houtput k o ho hkind, houtput k' o' ho' hkind'] at hsame
  · intro k o _ _ _ ho _ hclobber
    rw [hearly o (List.mem_of_getElem? ho)] at hclobber
    cases hclobber

theorem valid_oneOutput : oneOutput.Valid someTarget := by
  refine ⟨_, fun _ => some 0, rfl, allocates_of_outputs (by decide) ?_ fun _ _ _ _ _ => rfl,
    Or.inr ⟨0, 32, ascii "bswap", _, by decide, by decide, rfl, rfl, rfl⟩⟩
  intro k o ho hkind
  match k with
  | 0 => rfl
  | 1 =>
      cases ho
      cases hkind
  | k + 2 => cases ho

theorem valid_twoOutputs : twoOutputs.Valid someTarget := by
  refine ⟨_, fun k => some (k % 2), rfl, allocates_of_outputs (by decide) ?_ ?_,
    Or.inr ⟨0, 32, ascii "bswap", _, by decide, by decide, rfl, rfl, rfl⟩⟩
  · intro k o ho hkind
    match k with
    | 0 => rfl
    | 1 => rfl
    | 2 =>
        cases ho
        cases hkind
    | 3 =>
        cases ho
        cases hkind
    | k + 4 => cases ho
  · intro k o n ho hmatching
    match k with
    | 0 =>
        cases ho
        cases hmatching
    | 1 =>
        cases ho
        cases hmatching
    | 2 =>
        cases ho
        cases hmatching
        rfl
    | 3 =>
        cases ho
        cases hmatching
        rfl
    | k + 4 => cases ho

theorem valid_barrierAsm : barrierAsm.Valid someTarget := by
  refine ⟨[], fun _ => some 0, rfl, allocates_of_outputs (by decide) ?_ ?_, Or.inl rfl⟩
  · intro k o ho
    cases ho
  · intro k o n ho
    cases ho

/-- A swap, a barrier, and a use of the swap. -/
def oneSwap : Module where
  blocks := [[⟨0, .asmCall oneOutput [.other 7]⟩, ⟨1, .asmCall barrierAsm []⟩],
    [⟨2, .other 5 [.result 0]⟩]]
  unique := by decide

theorem preservesMeaning_oneSwap : PreservesMeaning someTarget oneSwap := by
  have hcalls : ∀ I ∈ oneSwap.blocks.flatten, ∀ asm args, I.op = .asmCall asm args →
      asm = oneOutput ∧ args.length = 1 ∨ asm = barrierAsm ∧ args = [] := by
    intro I hI asm args hop
    have hI : I ∈ [_, _, _] := hI
    simp only [List.mem_cons, List.not_mem_nil, or_false] at hI
    rcases hI with rfl | rfl | rfl
    · cases hop
      exact Or.inl ⟨rfl, rfl⟩
    · cases hop
      exact Or.inr ⟨rfl, rfl⟩
    · cases hop
  refine (preservesMeaning_iff ?_).mpr ?_
  · intro I hI asm args hop _
    rcases hcalls I hI asm args hop with ⟨rfl, hlength⟩ | ⟨rfl, rfl⟩
    · exact ⟨valid_oneOutput, hlength⟩
    · exact ⟨valid_barrierAsm, rfl⟩
  · intro I hI asm args hop hswap
    rcases hcalls I hI asm args hop with ⟨rfl, -⟩ | ⟨rfl, -⟩
    · exact ⟨32, rfl, rfl⟩
    · exact absurd hswap (by decide)

/-- A swap that passes a second operand through. -/
def twoSwap : Module where
  blocks := [[⟨0, .asmCall twoOutputs [.other 7, .other 8]⟩]]
  unique := by decide

/-- The assembly is valid, and is replaced by a call with one argument, of a function
for two types, whose result is no structure. -/
theorem second_output_is_lost :
    ValidCalls someTarget twoSwap ∧
      run twoSwap.blocks = some [[⟨1, .bswap [.int 32, .int 32] (.other 7)⟩]] ∧
        ¬ PreservesMeaning someTarget twoSwap := by
  refine ⟨?_, by decide, ?_⟩
  · intro I hI asm args hop _
    obtain rfl : I = _ := List.mem_singleton.mp hI
    cases hop
    exact ⟨valid_twoOutputs, rfl⟩
  · intro h
    obtain ⟨bits, hresult, -⟩ := @PreservesMeaning.simpleSwap _ _ h _ List.mem_cons_self
      twoOutputs _ rfl (by decide)
    cases hresult

end Passes
end AllvmTools
