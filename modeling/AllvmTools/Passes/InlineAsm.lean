import AllvmTools.Library.LittleEndian

/-!
# Inline assembly that swaps bytes

A call of inline assembly has a text, a constraint for each operand, and arguments
and results that the operands take.  Before the text runs each operand is assigned a
register or another location.  Of all texts only two kinds are given a meaning: the
empty one, and the swap of the bytes of operand 0.

* `swapRegister_eq` — the machine's instruction reverses the bytes.
* `computes_byteSwap` — a call with one integer argument and result of its type may
  have the swapped argument as its result, whatever its constraints are.
* `Computes.of_tied`, `Computes.preserved` — it has no other result where the argument
  is tied to operand 0, and other operands are preserved.
* `result_of_barrier` — a valid compiler barrier has no result.
-/

namespace AllvmTools
namespace Passes

open Library Library.LittleEndian

/-! ## Types -/

inductive ScalarType where
  | int (bits : Nat)
  | float
  | double
  | pointer (pointee : ScalarType)
  | other (code : Nat)
deriving DecidableEq, Repr

inductive ResultType where
  | void
  | scalar (type : ScalarType)
  | struct (elems : List ScalarType)
deriving DecidableEq, Repr

structure AsmFunctionType where
  result : ResultType
  params : List ScalarType
deriving DecidableEq, Repr

/-- The bits that a value takes in a general register; `none` where none holds it. -/
def ScalarType.registerBits : ScalarType → Option Nat
  | int bits => if bits ∈ [8, 16, 32, 64] then some bits else none
  | float => some 32
  | double => some 64
  | pointer _ => some 64
  | other _ => none

/-- The types of the outputs; a structure has at least two. -/
def ResultType.outputs : ResultType → Option (List ScalarType)
  | void => some []
  | scalar type => some [type]
  | struct elems => if 2 ≤ elems.length then some elems else none

/-! ## Constraints -/

inductive ConstraintKind where
  | output
  | input
  | clobber
deriving DecidableEq, Repr

/-- `InlineAsm::ConstraintInfo`. -/
structure Constraint where
  kind : ConstraintKind
  isIndirect : Bool
  isEarlyClobber : Bool
  /-- The output that an input is tied to. -/
  matching : Option Nat
  codes : List Text
deriving DecidableEq, Repr

/-- Outputs come before inputs, and inputs before clobbers. -/
def ConstraintKind.rank : ConstraintKind → Nat
  | output => 0
  | input => 1
  | clobber => 2

/-- `asm volatile ("" ::: "memory")`. -/
def barrierConstraints : Text :=
  ascii "~{memory},~{dirflag},~{fpsr},~{flags}"

/-- What is used of LLVM and its target: how a constraint string is read, and which
location, a register or `none`, a constraint admits. -/
structure Target where
  parseConstraints : Text → Option (List Constraint)
  admits : Constraint → Option Nat → Prop
  /-- The constraints of a compiler barrier are its four clobbers. -/
  barrier : ∀ cs, parseConstraints barrierConstraints = some cs → ∀ c ∈ cs, c.kind = .clobber

/-- The callee of the call, and its type. -/
structure InlineAsm where
  asmString : Text
  constraintString : Text
  type : AsmFunctionType
deriving DecidableEq, Repr

/-- An operand: the type of its value, and the argument that is its value or its
address, or the place of its value among the results. -/
structure AsmOperand where
  constraint : Constraint
  type : ScalarType
  arg : Option Nat
  out : Option Nat
deriving DecidableEq, Repr

/-- The operands that take these outputs and parameters, which are counted from `out`
and `arg`. -/
def operandsOf : List Constraint → List ScalarType → List ScalarType → Nat → Nat →
    Option (List AsmOperand)
  | [], [], [], _, _ => some []
  | [], _, _, _, _ => none
  | c :: cs, outs, params, out, arg =>
      if c.kind = .clobber then
        operandsOf cs outs params out arg
      else if c.kind = .output ∧ c.isIndirect = false then
        match outs with
        | [] => none
        | type :: outs =>
            (operandsOf cs outs params (out + 1) arg).map (⟨c, type, none, some out⟩ :: ·)
      else
        match c.isIndirect, params with
        | false, type :: params =>
            (operandsOf cs outs params out (arg + 1)).map (⟨c, type, some arg, none⟩ :: ·)
        | true, .pointer type :: params =>
            (operandsOf cs outs params out (arg + 1)).map (⟨c, type, some arg, none⟩ :: ·)
        | _, _ => none

/-- `InlineAsm::Verify`, with the operands that it finds. -/
def InlineAsm.operands (target : Target) (asm : InlineAsm) : Option (List AsmOperand) :=
  match target.parseConstraints asm.constraintString, asm.type.result.outputs with
  | some cs, some outs =>
      if (cs.map fun c => c.kind.rank).Pairwise (· ≤ ·) then operandsOf cs outs asm.type.params 0 0
      else none
  | _, _ => none

/-! ## The machine -/

/-- `bswap` on a register of 32 bits. -/
def bswap32 (x : Nat) : Nat :=
  x % 2 ^ 8 * 2 ^ 24 + x / 2 ^ 8 % 2 ^ 8 * 2 ^ 16 + x / 2 ^ 16 % 2 ^ 8 * 2 ^ 8 +
    x / 2 ^ 24 % 2 ^ 8

/-- `bswap` on a register of 64 bits. -/
def bswap64 (x : Nat) : Nat :=
  bswap32 x * 2 ^ 32 + bswap32 (x / 2 ^ 32)

/-- What a register holds after its lower `bits` bits were swapped; the upper half is
cleared. -/
def swapRegister (bits x : Nat) : Nat :=
  if bits = 32 then bswap32 x else bswap64 x

/-- The pieces that `StringRef::split` makes of a text, without the empty ones. -/
def asmPieces (asmString : Text) : List Text :=
  (asmString.splitOn 32).filter fun piece => !piece.isEmpty

/-- The operand sizes of an instruction. -/
def swapBits (mnemonic : Text) : List Nat :=
  if mnemonic = ascii "bswap" then [32, 64]
  else if mnemonic = ascii "bswapl" then [32]
  else if mnemonic = ascii "bswapq" then [64]
  else []

/-- Where the operands are: in a register, or elsewhere. -/
abbrev Allocation := Nat → Option Nat

/-- The text swaps the lower `bits` bits of register `r`, where operand 0 is. -/
def Swaps (asmString : Text) (ops : List AsmOperand) (alloc : Allocation) (r bits : Nat) : Prop :=
  ∃ mnemonic o, asmPieces asmString = [mnemonic, ascii "$0"] ∧ bits ∈ swapBits mnemonic ∧
    ops[0]? = some o ∧ o.type.registerBits = some bits ∧ alloc 0 = some r

/-- The locations are as the constraints ask. -/
structure Allocates (target : Target) (ops : List AsmOperand) (alloc : Allocation) : Prop where
  admits : ∀ k o, ops[k]? = some o → target.admits o.constraint (alloc k)
  /-- Outputs that are not written through an address are in registers. -/
  inRegister : ∀ k o n, ops[k]? = some o → o.out = some n → (alloc k).isSome = true
  tied : ∀ k o n, ops[k]? = some o → o.constraint.matching = some n → alloc k = alloc n
  outputs : ∀ k o k' o' r, ops[k]? = some o → ops[k']? = some o' → o.constraint.kind = .output →
    o'.constraint.kind = .output → alloc k = some r → alloc k' = some r → k = k'
  early : ∀ k o k' o' r, ops[k]? = some o → ops[k']? = some o' →
    o.constraint.isEarlyClobber = true → o'.constraint.kind = .input →
      o'.constraint.matching ≠ some k → alloc k = some r → alloc k' ≠ some r

/-- Values in registers. -/
abbrev Registers := Nat → Nat

/-- The registers hold the arguments. -/
def HoldArgs (ops : List AsmOperand) (alloc : Allocation) (args : List Nat) (regs : Registers) :
    Prop :=
  ∀ k o n r bits, ops[k]? = some o → o.arg = some n → o.constraint.isIndirect = false →
    alloc k = some r → o.type.registerBits = some bits → args[n]? = some (regs r % 2 ^ bits)

/-- The results are in the registers. -/
def HoldResults (ops : List AsmOperand) (alloc : Allocation) (results : List Nat)
    (regs : Registers) : Prop :=
  results.length = (ops.filterMap AsmOperand.out).length ∧
    ∀ k o n r bits, ops[k]? = some o → o.out = some n → alloc k = some r →
      o.type.registerBits = some bits → results[n]? = some (regs r % 2 ^ bits)

/-- Running the text. -/
def Executes (asmString : Text) (ops : List AsmOperand) (alloc : Allocation)
    (regs regs' : Registers) : Prop :=
  (asmString = [] ∧ regs' = regs) ∨
    ∃ r bits, Swaps asmString ops alloc r bits ∧
      regs' = Function.update regs r (swapRegister bits (regs r))

/-- The assembly is valid: it has locations for its operands with which it assembles. -/
def InlineAsm.Valid (target : Target) (asm : InlineAsm) : Prop :=
  ∃ ops alloc, asm.operands target = some ops ∧ Allocates target ops alloc ∧
    (asm.asmString = [] ∨ ∃ r bits, Swaps asm.asmString ops alloc r bits)

/-- On these arguments the call may have these results.  What an output register holds
that no operand was assigned to is anything. -/
def Computes (target : Target) (asm : InlineAsm) (args results : List Nat) : Prop :=
  ∃ ops alloc regs regs', asm.operands target = some ops ∧ Allocates target ops alloc ∧
    HoldArgs ops alloc args regs ∧ Executes asm.asmString ops alloc regs regs' ∧
      HoldResults ops alloc results regs'

/-! ## Swapping registers -/

theorem byteSwap_four (x : Nat) : byteSwap 4 x = bswap32 x := by
  unfold bswap32
  rw [byteSwap_succ, byteSwap_succ, byteSwap_succ, byteSwap_succ]
  simp only [show byteSwap 0 = fun _ => 0 from rfl]
  omega

theorem byteSwap_eight (x : Nat) : byteSwap 8 x = bswap64 x := by
  unfold bswap64
  rw [byteSwap_add 4 4, byteSwap_four, byteSwap_four, show 256 ^ 4 = 2 ^ 32 from rfl]
  omega

theorem mem_swapBits {mnemonic : Text} {bits : Nat} (h : bits ∈ swapBits mnemonic) :
    bits = 32 ∨ bits = 64 := by
  unfold swapBits at h
  split at h
  · simpa using h
  split at h
  · exact Or.inl (List.mem_singleton.mp h)
  split at h
  · exact Or.inr (List.mem_singleton.mp h)
  · cases h

/-- The instruction reverses the bytes that it swaps. -/
theorem swapRegister_eq {bits : Nat} (hbits : bits = 32 ∨ bits = 64) (x : Nat) :
    swapRegister bits x = byteSwap (bits / 8) x := by
  unfold swapRegister
  rcases hbits with rfl | rfl
  · exact (byteSwap_four x).symm
  · exact (byteSwap_eight x).symm

/-- They are all that there is in the register. -/
theorem swapRegister_lt {bits : Nat} (hbits : bits = 32 ∨ bits = 64) (x : Nat) :
    swapRegister bits x < 2 ^ bits := by
  rw [swapRegister_eq hbits]
  have h := byteSwap_lt (bits / 8) x
  rcases hbits with rfl | rfl
  · exact h
  · exact h

/-! ## Operands -/

section Operands

variable {cs : List Constraint} {outs params : List ScalarType} {out arg : Nat}
  {ops : List AsmOperand}

theorem operandsOf_nil (h : operandsOf [] outs params out arg = some ops) :
    outs = [] ∧ params = [] ∧ ops = [] := by
  unfold operandsOf at h
  split at h
  · exact ⟨rfl, rfl, (Option.some.inj h).symm⟩
  · cases h
  · next hcons => cases hcons

/-- The first constraint and the others. -/
theorem operandsOf_cons {c : Constraint}
    (h : operandsOf (c :: cs) outs params out arg = some ops) :
    (c.kind = .clobber ∧ operandsOf cs outs params out arg = some ops) ∨
    (c.kind = .output ∧ c.isIndirect = false ∧ ∃ type outs' ops', outs = type :: outs' ∧
      operandsOf cs outs' params (out + 1) arg = some ops' ∧
        ops = ⟨c, type, none, some out⟩ :: ops') ∨
    (c.kind ≠ .clobber ∧ ¬ (c.kind = .output ∧ c.isIndirect = false) ∧
      ∃ type params' ops', params = (if c.isIndirect then .pointer type else type) :: params' ∧
        operandsOf cs outs params' out (arg + 1) = some ops' ∧
          ops = ⟨c, type, some arg, none⟩ :: ops') := by
  unfold operandsOf at h
  split at h
  · next hclobber => exact Or.inl ⟨hclobber, h⟩
  next hclobber =>
  split at h
  · next hdirect =>
      split at h
      · cases h
      next type outs' =>
      obtain ⟨ops', hops, rfl⟩ := Option.map_eq_some_iff.mp h
      exact Or.inr (Or.inl ⟨hdirect.1, hdirect.2, type, outs', ops', rfl, hops, rfl⟩)
  next hdirect =>
  refine Or.inr (Or.inr ⟨hclobber, hdirect, ?_⟩)
  split at h
  · next type params' hindirect =>
      obtain ⟨ops', hops, rfl⟩ := Option.map_eq_some_iff.mp h
      exact ⟨type, params', ops', by rw [hindirect]; rfl, hops, rfl⟩
  · next type params' hindirect =>
      obtain ⟨ops', hops, rfl⟩ := Option.map_eq_some_iff.mp h
      exact ⟨type, params', ops', by rw [hindirect]; rfl, hops, rfl⟩
  · cases h

/-- An operand takes an output or a parameter. -/
theorem operandsOf_types (h : operandsOf cs outs params out arg = some ops) :
    ∀ o ∈ ops,
      (o.arg = none ∧ o.constraint.kind = .output ∧ ∃ n, o.out = some (out + n) ∧
        outs[n]? = some o.type) ∨
      (o.out = none ∧ ∃ n, o.arg = some (arg + n) ∧
        params[n]? = some (if o.constraint.isIndirect then .pointer o.type else o.type)) := by
  induction cs generalizing outs params out arg ops with
  | nil =>
      obtain ⟨-, -, rfl⟩ := operandsOf_nil h
      exact fun o ho => absurd ho List.not_mem_nil
  | cons c cs ih =>
      intro o ho
      rcases operandsOf_cons h with ⟨-, hrest⟩ | ⟨hkind, -, type, outs', ops', rfl, hrest, rfl⟩ |
        ⟨-, -, type, params', ops', rfl, hrest, rfl⟩
      · exact ih hrest o ho
      · rcases List.mem_cons.mp ho with rfl | ho
        · exact Or.inl ⟨rfl, hkind, 0, rfl, rfl⟩
        · rcases ih hrest o ho with ⟨harg, hoperand, n, hout, htype⟩ | hparam
          · exact Or.inl ⟨harg, hoperand, n + 1, by rw [hout]; congr 1; omega, htype⟩
          · exact Or.inr hparam
      · rcases List.mem_cons.mp ho with rfl | ho
        · exact Or.inr ⟨rfl, 0, rfl, rfl⟩
        · rcases ih hrest o ho with hout | ⟨hout, n, harg, htype⟩
          · exact Or.inl hout
          · exact Or.inr ⟨hout, n + 1, by rw [harg]; congr 1; omega, htype⟩

/-- Without output constraints there is no output. -/
theorem outs_eq_nil (hcs : ∀ c ∈ cs, c.kind ≠ .output)
    (h : operandsOf cs outs params out arg = some ops) : outs = [] := by
  induction cs generalizing params out arg ops with
  | nil => exact (operandsOf_nil h).1
  | cons c cs ih =>
      have hrest := fun c' hc' => hcs c' (List.mem_cons_of_mem c hc')
      rcases operandsOf_cons h with ⟨-, h⟩ | ⟨hkind, -⟩ | ⟨-, -, _, _, _, -, h, -⟩
      · exact ih hrest h
      · exact absurd hkind (hcs c List.mem_cons_self)
      · exact ih hrest h

/-- Clobbers take neither. -/
theorem eq_nil_of_clobbers (hcs : ∀ c ∈ cs, c.kind = .clobber)
    (h : operandsOf cs outs params out arg = some ops) : outs = [] ∧ params = [] := by
  induction cs generalizing ops with
  | nil =>
      obtain ⟨houts, hparams, -⟩ := operandsOf_nil h
      exact ⟨houts, hparams⟩
  | cons c cs ih =>
      have hclobber := hcs c List.mem_cons_self
      rcases operandsOf_cons h with ⟨-, h⟩ | ⟨hkind, -⟩ | ⟨hkind, -⟩
      · exact ih (fun c' hc' => hcs c' (List.mem_cons_of_mem c hc')) h
      · rw [hclobber] at hkind
        cases hkind
      · exact absurd hclobber hkind

end Operands

section Calls

variable {target : Target} {asm : InlineAsm} {ops : List AsmOperand}

/-- The constraints behind the operands. -/
theorem operands_eq_some (h : asm.operands target = some ops) :
    ∃ cs outs, target.parseConstraints asm.constraintString = some cs ∧
      asm.type.result.outputs = some outs ∧
        (cs.map fun c => c.kind.rank).Pairwise (· ≤ ·) ∧
          operandsOf cs outs asm.type.params 0 0 = some ops := by
  unfold InlineAsm.operands at h
  split at h
  · next cs outs hcs houts =>
      split at h
      · next hsorted => exact ⟨cs, outs, hcs, houts, hsorted, h⟩
      · cases h
  · cases h

/-- **Compiler barriers** have no result. -/
theorem result_of_barrier (hvalid : asm.Valid target)
    (hbarrier : asm.constraintString = barrierConstraints) : asm.type.result = .void := by
  obtain ⟨ops, -, hoperands, -, -⟩ := hvalid
  obtain ⟨cs, outs, hcs, houts, -, hops⟩ := operands_eq_some hoperands
  rw [hbarrier] at hcs
  have hnil := (eq_nil_of_clobbers (target.barrier cs hcs) hops).1
  subst hnil
  -- a structure has two elements
  unfold ResultType.outputs at houts
  split at houts
  · next hvoid => exact hvoid
  · cases houts
  · split at houts
    · next hlength =>
        cases houts
        exact absurd hlength (by decide)
    · cases houts

/-- The outputs come first. -/
theorem not_output_of_sorted {c : Constraint} {cs : List Constraint}
    (hsorted : ((c :: cs).map fun c => c.kind.rank).Pairwise (· ≤ ·)) (hkind : c.kind ≠ .output) :
    ∀ c' ∈ cs, c'.kind ≠ .output := by
  rw [List.map_cons, List.pairwise_cons] at hsorted
  intro c' hc' hkind'
  have hrank := hsorted.1 _ (List.mem_map_of_mem hc')
  rw [hkind'] at hrank
  cases hcase : c.kind with
  | output => exact hkind hcase
  | input =>
      rw [hcase] at hrank
      exact absurd hrank (by decide)
  | clobber =>
      rw [hcase] at hrank
      exact absurd hrank (by decide)

/-- A call with one argument and one result: operand 0 is the result, and the others
are no results. -/
theorem operands_of_single {bits : Nat} (hresult : asm.type.result = .scalar (.int bits))
    (hparams : asm.type.params = [.int bits]) (h : asm.operands target = some ops) :
    ∃ o rest, ops = o :: rest ∧ o.type = .int bits ∧ o.out = some 0 ∧ o.arg = none ∧
      ∀ o' ∈ rest, o'.out = none ∧ (∀ n ∈ o'.arg, n = 0) ∧
        (o'.constraint.isIndirect = false → o'.type = .int bits) := by
  obtain ⟨cs, outs, -, houts, hsorted, hops⟩ := operands_eq_some h
  rw [hresult] at houts
  obtain rfl : outs = [.int bits] := (Option.some.inj houts).symm
  rw [hparams] at hops
  cases cs with
  | nil => cases (operandsOf_nil hops).1
  | cons c cs =>
      have hlater := not_output_of_sorted hsorted
      rcases operandsOf_cons hops with ⟨hkind, hrest⟩ |
        ⟨-, -, type, outs', ops', hout, hrest, rfl⟩ | ⟨-, hdirect, type, params', ops', hparam, hrest, rfl⟩
      · -- no output would be left
        have hkinds := hlater (by rw [hkind]; decide)
        cases outs_eq_nil hkinds hrest
      · cases hout
        refine ⟨_, ops', rfl, rfl, rfl, rfl, ?_⟩
        intro o' ho'
        rcases operandsOf_types hrest o' ho' with ⟨-, -, n, -, htype⟩ | ⟨hnone, n, harg, htype⟩
        · cases htype
        · have hn : n = 0 := by
            by_contra hpos
            rw [List.getElem?_eq_none (by simp; omega)] at htype
            cases htype
          subst hn
          refine ⟨hnone, ?_, ?_⟩
          · intro m hm
            rw [harg] at hm
            cases hm
            rfl
          · intro hindirect
            rw [hindirect] at htype
            exact (Option.some.inj htype).symm
      · -- an address is no integer, and an input comes behind the outputs
        cases hindirect : c.isIndirect with
        | true =>
            rw [hindirect] at hparam
            cases hparam
        | false =>
            have hkind : c.kind ≠ .output := fun hkind => hdirect ⟨hkind, hindirect⟩
            cases outs_eq_nil (hlater hkind) hrest

/-- **The swap**: where the assembly is valid, the swapped argument is among the results
it may have. -/
theorem computes_byteSwap {bits : Nat} (hresult : asm.type.result = .scalar (.int bits))
    (hparams : asm.type.params = [.int bits]) (hvalid : asm.Valid target)
    (hswap : asm.asmString ≠ []) :
    (bits = 32 ∨ bits = 64) ∧
      ∀ v < 2 ^ bits, Computes target asm [v] [byteSwap (bits / 8) v] := by
  obtain ⟨ops, alloc, hoperands, halloc, hassembles⟩ := hvalid
  obtain ⟨r, bits', hswaps⟩ := hassembles.resolve_left hswap
  obtain ⟨o, rest, rfl, htype, hout, harg, hrest⟩ := operands_of_single hresult hparams hoperands
  obtain ⟨mnemonic, o', hpieces, hmem, ho', hbits', hr⟩ := id hswaps
  cases ho'
  have hwidth : ∀ w, (ScalarType.int bits).registerBits = some w → w = bits := by
    intro w hw
    unfold ScalarType.registerBits at hw
    dsimp only at hw
    split at hw
    · exact (Option.some.inj hw).symm
    · cases hw
  obtain rfl : bits' = bits := hwidth bits' (by rw [← htype, hbits'])
  have hbits := mem_swapBits hmem
  refine ⟨hbits, ?_⟩
  intro v hv
  -- all registers may hold the argument
  refine ⟨_, alloc, fun _ => v, Function.update (fun _ => v) r (swapRegister bits' v), hoperands,
    halloc, ?_, Or.inr ⟨r, bits', hswaps, rfl⟩, ?_, ?_⟩
  · intro k o' n r' w ho' hargn hindirect _ hw
    cases k with
    | zero =>
        cases ho'
        rw [harg] at hargn
        cases hargn
    | succ k =>
        have ho' : o' ∈ rest := List.mem_of_getElem? ho'
        obtain ⟨-, hzero, hint⟩ := hrest o' ho'
        rw [hzero n hargn, hwidth w (by rw [← hint hindirect, hw]), Nat.mod_eq_of_lt hv]
        rfl
  · rw [List.filterMap_cons_some hout, List.filterMap_eq_nil_iff.mpr fun o' ho' => (hrest o' ho').1]
    rfl
  · intro k o' n r' w ho' houtn hr' hw
    cases k with
    | zero =>
        cases ho'
        cases hout.symm.trans houtn
        cases hr.symm.trans hr'
        rw [Function.update_self, hwidth w (by rw [← htype, hw]),
          Nat.mod_eq_of_lt (swapRegister_lt hbits v), swapRegister_eq hbits]
        rfl
    | succ k =>
        rw [(hrest o' (List.mem_of_getElem? ho')).1] at houtn
        cases houtn

/-- An argument that is tied to operand 0 is what is swapped. -/
theorem Computes.of_tied {args results : List Nat} (h : Computes target asm args results)
    (hoperands : asm.operands target = some ops) (hswap : asm.asmString ≠ [])
    {o o' : AsmOperand} {k m n bits v : Nat} (ho : ops[0]? = some o) (hout : o.out = some m)
    (hbits : o.type.registerBits = some bits) (ho' : ops[k]? = some o')
    (htied : o'.constraint.matching = some 0) (harg : o'.arg = some n)
    (hdirect : o'.constraint.isIndirect = false) (hbits' : o'.type.registerBits = some bits)
    (hv : args[n]? = some v) : results[m]? = some (byteSwap (bits / 8) v) := by
  obtain ⟨ops', alloc, regs, regs', hoperands', halloc, hargs, hexecutes, -, hresults⟩ := h
  cases hoperands.symm.trans hoperands'
  obtain ⟨r, w, ⟨mnemonic, o'', -, hmem, ho'', hw, hr⟩, rfl⟩ :=
    hexecutes.resolve_left fun h => hswap h.1
  cases ho.symm.trans ho''
  cases hbits.symm.trans hw
  have hshared : alloc k = some r := (halloc.tied k o' 0 ho' htied).trans hr
  have hheld := hargs k o' n r bits ho' harg hdirect hshared hbits'
  have hwidth := mem_swapBits hmem
  rw [hresults 0 o m r bits ho hout hr hbits, Function.update_self,
    Nat.mod_eq_of_lt (swapRegister_lt hwidth _), swapRegister_eq hwidth,
    Option.some.inj (hv.symm.trans hheld)]
  rw [show 2 ^ bits = 256 ^ (bits / 8) by rcases hwidth with rfl | rfl <;> rfl, byteSwap_mod]

/-- An argument that is tied to another output is preserved. -/
theorem Computes.preserved {args results : List Nat} (h : Computes target asm args results)
    (hoperands : asm.operands target = some ops) (hswap : asm.asmString ≠ [])
    {o o' : AsmOperand} {k k' m n bits : Nat} (hk : k ≠ 0) (ho : ops[k]? = some o)
    (hkind : o.constraint.kind = .output) (hout : o.out = some m)
    (hbits : o.type.registerBits = some bits) (ho' : ops[k']? = some o')
    (htied : o'.constraint.matching = some k) (harg : o'.arg = some n)
    (hdirect : o'.constraint.isIndirect = false) (hbits' : o'.type.registerBits = some bits)
    (hfirst : ∀ first ∈ ops[0]?, first.constraint.kind = .output) : results[m]? = args[n]? := by
  obtain ⟨ops', alloc, regs, regs', hoperands', halloc, hargs, hexecutes, -, hresults⟩ := h
  cases hoperands.symm.trans hoperands'
  obtain ⟨r, w, ⟨mnemonic, first, -, -, hfirst', -, hr⟩, rfl⟩ :=
    hexecutes.resolve_left fun h => hswap h.1
  obtain ⟨r', hr'⟩ := Option.isSome_iff_exists.mp (halloc.inRegister k o m ho hout)
  -- two outputs are in two registers
  have hne : r' ≠ r := by
    rintro rfl
    exact hk (halloc.outputs k o 0 first r' ho hfirst' hkind (hfirst first hfirst') hr' hr)
  have hshared : alloc k' = some r' := (halloc.tied k' o' k ho' htied).trans hr'
  rw [hresults k o m r' bits ho hout hr' hbits, Function.update_of_ne hne,
    hargs k' o' n r' bits ho' harg hdirect hshared hbits']

end Calls

end Passes
end AllvmTools
