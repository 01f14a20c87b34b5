import AllvmTools.Library.Fields
import AllvmTools.StaticCodeGen.CompilationOptions

/-!
# What a serialization tells apart

The members of `CompilationOptions` are written without separators, so the string
says which options they were only as far as it says where each member ends.  The
`Layout` of a value is what these boundaries depend on.

* `serialize_inj_of_layout` — values of one layout have different strings.
* `told_apart_iff` — the values of two layouts do just if the layouts are the same,
  differ in their total length, or put the sign of a number against a digit.
* `exists_same_string` — no value has a string of its own.
* `moved_text_collides` — a text moved from one member to the next.
-/

namespace AllvmTools
namespace StaticCodeGen

open Library Library.Text Library.Fields

/-! ## Layouts -/

/-- The lengths of the texts, the presence of the optional members, and the sign and
the number of digits of the two numbers. -/
structure Layout where
  targetTriple : Nat
  mArch : Nat
  mCPU : Nat
  mAttrs : List Nat
  relocModel : Bool
  stackAlignmentOverride : Nat
  dwarfNegative : Bool
  dwarfVersion : Nat
  abiName : Nat
  disableFPElim : Bool
  disableTailCalls : Bool
  trapFuncName : Option Nat
deriving DecidableEq, Repr

def CompilationOptions.layout (o : CompilationOptions) : Layout where
  targetTriple := o.targetTriple.length
  mArch := o.mArch.length
  mCPU := o.mCPU.length
  mAttrs := o.mAttrs.map List.length
  relocModel := o.relocModel.isSome
  stackAlignmentOverride := (decimal (o.tOptions.stackAlignmentOverride.toNat : Int)).length
  dwarfNegative := decide (o.tOptions.mcOptions.dwarfVersion < 0)
  dwarfVersion := (decimal (o.tOptions.mcOptions.dwarfVersion.natAbs : Int)).length
  abiName := o.tOptions.mcOptions.abiName.length
  disableFPElim := o.disableFPElim.isSome
  disableTailCalls := o.disableTailCalls.isSome
  trapFuncName := o.trapFuncName.map List.length

/-- `DwarfVersion` is an `int`. -/
def CompilationOptions.Valid (o : CompilationOptions) : Prop :=
  -2 ^ 31 ≤ o.tOptions.mcOptions.dwarfVersion ∧ o.tOptions.mcOptions.dwarfVersion < 2 ^ 31

namespace Layout

variable (p : Layout)

/-- The length of the texts in front. -/
def names : Nat :=
  p.targetTriple + p.mArch + p.mCPU + p.mAttrs.sum

/-- The digits behind them. -/
def firstDigits : Nat :=
  11 + p.relocModel.toNat + p.stackAlignmentOverride + 31

/-- The digits of the members at the end. -/
def lastDigits : Nat :=
  3 + p.disableFPElim.toNat + p.disableTailCalls.toNat

/-- Where the sign of the DWARF version stands. -/
def signPos : Nat :=
  p.names + p.firstDigits

/-- Where the digits of the DWARF version start. -/
def dwarfStart : Nat :=
  p.signPos + p.dwarfNegative.toNat

def abiStart : Nat :=
  p.dwarfStart + p.dwarfVersion

def lastStart : Nat :=
  p.abiStart + p.abiName

def trapStart : Nat :=
  p.lastStart + p.lastDigits

/-- The length of the string. -/
def size : Nat :=
  p.trapStart + p.trapFuncName.getD 0

/-- What stands at each position of the string. -/
def cells : List Cell :=
  List.replicate p.names Cell.byte ++
    (List.replicate p.firstDigits Cell.digit ++
      (List.replicate p.dwarfNegative.toNat Cell.sign ++
        (List.replicate p.dwarfVersion Cell.digit ++
          (List.replicate p.abiName Cell.byte ++
            (List.replicate p.lastDigits Cell.digit ++
              List.replicate (p.trapFuncName.getD 0) Cell.byte)))))

theorem length_cells : p.cells.length = p.size := by
  simp only [cells, List.length_append, List.length_replicate, size, trapStart, lastStart, abiStart,
    dwarfStart, signPos]
  omega

end Layout

/-- The sign of the one falls on a digit of the other. -/
def SignOnDigit (p q : Layout) : Prop :=
  p.dwarfNegative = true ∧ q.cells[p.signPos]? = some .digit

/-- The layouts by which values are told apart. -/
def Separated (p q : Layout) : Prop :=
  p = q ∨ p.size ≠ q.size ∨ SignOnDigit p q ∨ SignOnDigit q p

/-! ## The parts of a string -/

section Flags

@[simp] theorem isFlag_boolText (b : Bool) : IsFlag (boolText b) := by
  cases b with
  | false => exact ⟨hexDigit 0, ⟨0, by decide, rfl⟩, by decide⟩
  | true => exact ⟨hexDigit 1, ⟨1, by decide, rfl⟩, by decide⟩

theorem isFlag_decimal {i : Int} (hle : 0 ≤ i) (hlt : i < 10) : IsFlag (decimal i) := by
  obtain ⟨n, rfl⟩ := Int.eq_ofNat_of_zero_le hle
  have hall : ∀ n : Nat, n < 10 → decimal (n : Int) = [hexDigit n] := by decide
  exact ⟨hexDigit n, ⟨n, by omega, rfl⟩, hall n (by omega)⟩

@[simp] theorem isFlag_cmModel (m : CodeModel) : IsFlag (decimal m.toInt) := by
  cases m <;> exact isFlag_decimal (by decide) (by decide)

@[simp] theorem isFlag_relocModel (m : RelocModel) : IsFlag (decimal m.toInt) := by
  cases m <;> exact isFlag_decimal (by decide) (by decide)

@[simp] theorem isFlag_oLvl (m : OptLevel) : IsFlag (decimal m.toInt) := by
  cases m <;> exact isFlag_decimal (by decide) (by decide)

@[simp] theorem isFlag_floatABIType (m : FloatABI) : IsFlag (decimal m.toInt) := by
  cases m <;> exact isFlag_decimal (by decide) (by decide)

@[simp] theorem isFlag_allowFPOpFusion (m : FPOpFusion) : IsFlag (decimal m.toInt) := by
  cases m <;> exact isFlag_decimal (by decide) (by decide)

@[simp] theorem isFlag_threadModel (m : ThreadModel) : IsFlag (decimal m.toInt) := by
  cases m <;> exact isFlag_decimal (by decide) (by decide)

@[simp] theorem isFlag_eabiVersion (m : EABI) : IsFlag (decimal m.toInt) := by
  cases m <;> exact isFlag_decimal (by decide) (by decide)

@[simp] theorem isFlag_debuggerTuning (m : DebuggerKind) : IsFlag (decimal m.toInt) := by
  cases m <;> exact isFlag_decimal (by decide) (by decide)

@[simp] theorem isFlag_fpDenormalMode (m : FPDenormal) : IsFlag (decimal m.toInt) := by
  cases m <;> exact isFlag_decimal (by decide) (by decide)

@[simp] theorem isFlag_exceptionModel (m : ExceptionHandling) : IsFlag (decimal m.toInt) := by
  cases m <;> exact isFlag_decimal (by decide) (by decide)

end Flags

/-- The members of one digit in front of the DWARF version. -/
def MCOptions.flags (o : MCOptions) : List Text :=
  [boolText o.sanitizeAddress,
    boolText o.mcRelaxAll,
    boolText o.mcNoExecStack,
    boolText o.mcFatalWarnings,
    boolText o.mcNoWarn,
    boolText o.mcSaveTempLabels,
    boolText o.mcUseDwarfDirectory,
    boolText o.mcIncrementalLinkerCompatible,
    boolText o.showMCEncoding,
    boolText o.showMCInst,
    boolText o.asmVerbose,
    boolText o.preserveAsmComments]

theorem MCOptions.serialize_eq (o : MCOptions) :
    o.serialize = o.flags.flatten ++ (decimal o.dwarfVersion ++ o.abiName) := by
  simp only [serialize, flags, List.flatten_cons, List.flatten_nil, List.append_nil,
    List.append_assoc]

/-- The members of one digit before the stack alignment. -/
def TargetOptions.mathFlags (o : TargetOptions) : List Text :=
  [boolText o.printMachineCode,
    boolText o.lessPreciseFPMADOption,
    boolText o.unsafeFPMath,
    boolText o.noInfsFPMath,
    boolText o.noNaNsFPMath,
    boolText o.noTrappingFPMath,
    boolText o.honorSignDependentRoundingFPMathOption,
    boolText o.noZerosInBSS,
    boolText o.guaranteedTailCallOpt]

/-- The members of one digit behind the stack alignment. -/
def TargetOptions.codeFlags (o : TargetOptions) : List Text :=
  [boolText o.stackSymbolOrdering,
    boolText o.enableFastISel,
    boolText o.useInitArray,
    boolText o.disableIntegratedAS,
    boolText o.compressDebugSections,
    boolText o.relaxELFRelocations,
    boolText o.functionSections,
    boolText o.dataSections,
    boolText o.uniqueSectionNames,
    boolText o.trapUnreachable,
    boolText o.emulatedTLS,
    boolText o.enableIPRA,
    decimal o.floatABIType.toInt,
    decimal o.allowFPOpFusion.toInt,
    decimal o.threadModel.toInt,
    decimal o.eabiVersion.toInt,
    decimal o.debuggerTuning.toInt,
    decimal o.fpDenormalMode.toInt,
    decimal o.exceptionModel.toInt]

theorem TargetOptions.serialize_eq (o : TargetOptions) :
    o.serialize = o.mathFlags.flatten ++ (decimal (o.stackAlignmentOverride.toNat : Int) ++
      (o.codeFlags.flatten ++ o.mcOptions.serialize)) := by
  unfold serialize
  generalize decimal (o.stackAlignmentOverride.toNat : Int) = alignment
  generalize o.mcOptions.serialize = rest
  unfold mathFlags codeFlags
  simp only [List.flatten_cons, List.flatten_nil, List.append_nil, List.append_assoc]

namespace CompilationOptions

/-- The texts in front. -/
def names (o : CompilationOptions) : Text :=
  o.targetTriple ++ o.mArch ++ o.mCPU ++ o.mAttrs.flatten

/-- The members of one digit before the stack alignment. -/
def firstFlags (o : CompilationOptions) : List Text :=
  [decimal o.cmModel.toInt] ++ (o.relocModel.map fun r => decimal r.toInt).toList ++
    [decimal o.oLvl.toInt] ++ o.tOptions.mathFlags

/-- The members of one digit between the two numbers. -/
def secondFlags (o : CompilationOptions) : List Text :=
  o.tOptions.codeFlags ++ o.tOptions.mcOptions.flags

/-- The members of one digit at the end. -/
def lastFlags (o : CompilationOptions) : List Text :=
  [boolText o.noVerify, boolText o.disableSimplifyLibCalls] ++
    (o.disableFPElim.map boolText).toList ++ (o.disableTailCalls.map boolText).toList ++
    [boolText o.stackRealign]

theorem optional_eq {α : Type} (f : α → Text) (a : Option α) :
    optional f a = (a.map f).toList.flatten := by
  cases a with
  | none => rfl
  | some a => exact (List.append_nil (f a)).symm

variable (o : CompilationOptions)

/-- The string by its parts. -/
theorem serialize_eq : o.serializeCompilationOptions =
    o.names ++ (o.firstFlags.flatten ++
      (decimal (o.tOptions.stackAlignmentOverride.toNat : Int) ++ (o.secondFlags.flatten ++
        (decimal o.tOptions.mcOptions.dwarfVersion ++ (o.tOptions.mcOptions.abiName ++
          (o.lastFlags.flatten ++ o.trapFuncName.getD [])))))) := by
  have htrap : optional id o.trapFuncName = o.trapFuncName.getD [] := by
    cases o.trapFuncName with
    | none => rfl
    | some name => rfl
  unfold serializeCompilationOptions
  rw [htrap, optional_eq, optional_eq, optional_eq, TargetOptions.serialize_eq,
    MCOptions.serialize_eq]
  simp only [names, firstFlags, secondFlags, lastFlags, List.flatten_append, List.flatten_cons,
    List.flatten_nil, List.append_nil, List.append_assoc]

theorem isFlag_firstFlags : ∀ t ∈ o.firstFlags, IsFlag t := by
  have hmath : ∀ t ∈ o.tOptions.mathFlags, IsFlag t := by
    simp [TargetOptions.mathFlags]
  have hmodels : ∀ t ∈ [decimal o.cmModel.toInt] ++
      (o.relocModel.map fun r => decimal r.toInt).toList ++ [decimal o.oLvl.toInt], IsFlag t := by
    cases o.relocModel with
    | none => simp
    | some r => simp
  intro t ht
  rcases List.mem_append.mp ht with ht | ht
  · exact hmodels t ht
  · exact hmath t ht

theorem isFlag_secondFlags : ∀ t ∈ o.secondFlags, IsFlag t := by
  have hcode : ∀ t ∈ o.tOptions.codeFlags, IsFlag t := by
    simp [TargetOptions.codeFlags]
  have hmc : ∀ t ∈ o.tOptions.mcOptions.flags, IsFlag t := by
    simp [MCOptions.flags]
  intro t ht
  rcases List.mem_append.mp ht with ht | ht
  · exact hcode t ht
  · exact hmc t ht

theorem isFlag_lastFlags : ∀ t ∈ o.lastFlags, IsFlag t := by
  unfold lastFlags
  cases o.disableFPElim with
  | none =>
      cases o.disableTailCalls with
      | none => simp
      | some b => simp
  | some a =>
      cases o.disableTailCalls with
      | none => simp
      | some b => simp

theorem length_firstFlags :
    o.firstFlags.flatten.length = 11 + o.layout.relocModel.toNat := by
  rw [length_flags o.isFlag_firstFlags]
  unfold firstFlags layout
  cases o.relocModel with
  | none => rfl
  | some r => rfl

theorem length_secondFlags : o.secondFlags.flatten.length = 31 :=
  length_flags o.isFlag_secondFlags

theorem length_lastFlags : o.lastFlags.flatten.length = o.layout.lastDigits := by
  rw [length_flags o.isFlag_lastFlags]
  unfold lastFlags layout Layout.lastDigits
  cases o.disableFPElim with
  | none => cases o.disableTailCalls <;> rfl
  | some a => cases o.disableTailCalls <;> rfl

theorem length_names : o.names.length = o.layout.names := by
  simp only [names, Layout.names, layout, List.length_append, List.length_flatten]

/-- The digits between the texts in front and the DWARF version. -/
def firstText (o : CompilationOptions) : Text :=
  o.firstFlags.flatten ++
    (decimal (o.tOptions.stackAlignmentOverride.toNat : Int) ++ o.secondFlags.flatten)

theorem length_firstText : o.firstText.length = o.layout.firstDigits := by
  unfold firstText Layout.firstDigits
  rw [List.length_append, List.length_append, o.length_firstFlags, o.length_secondFlags]
  show _ + (o.layout.stackAlignmentOverride + 31) = _
  omega

/-- The sign of the DWARF version. -/
def signText (o : CompilationOptions) : Text :=
  if o.tOptions.mcOptions.dwarfVersion < 0 then [minus] else []

theorem length_signText : o.signText.length = o.layout.dwarfNegative.toNat := by
  unfold signText layout
  by_cases hneg : o.tOptions.mcOptions.dwarfVersion < 0
  · rw [if_pos hneg, decide_eq_true hneg]
    rfl
  · rw [if_neg hneg, decide_eq_false hneg]
    rfl

/-- The string by the places where a layout says what can stand there. -/
theorem serialize_eq_cells : o.serializeCompilationOptions =
    o.names ++ (o.firstText ++ (o.signText ++
      (decimal (o.tOptions.mcOptions.dwarfVersion.natAbs : Int) ++
        (o.tOptions.mcOptions.abiName ++
          (o.lastFlags.flatten ++ o.trapFuncName.getD []))))) := by
  rw [serialize_eq, decimal_eq o.tOptions.mcOptions.dwarfVersion]
  simp only [firstText, signText, List.append_assoc]

theorem length_trapFuncName :
    (o.trapFuncName.getD []).length = o.layout.trapFuncName.getD 0 := by
  unfold layout
  cases o.trapFuncName with
  | none => rfl
  | some name => rfl

theorem admits : List.Forall₂ Cell.Admits o.layout.cells o.serializeCompilationOptions := by
  rw [serialize_eq_cells]
  unfold Layout.cells
  have hfirst : ∀ b ∈ o.firstText, Cell.digit.Admits b := by
    intro b hb
    rcases List.mem_append.mp hb with hb | hb
    · exact isDigit_of_mem_flags o.isFlag_firstFlags hb
    · rcases List.mem_append.mp hb with hb | hb
      · exact isDigit_of_mem_decimal hb
      · exact isDigit_of_mem_flags o.isFlag_secondFlags hb
  have hsign : ∀ b ∈ o.signText, Cell.sign.Admits b := by
    intro b hb
    unfold signText at hb
    split at hb
    · exact List.mem_singleton.mp hb
    · cases hb
  have hdwarf : ∀ b ∈ decimal (o.tOptions.mcOptions.dwarfVersion.natAbs : Int),
      Cell.digit.Admits b := fun b hb => isDigit_of_mem_decimal hb
  have hlast : ∀ b ∈ o.lastFlags.flatten, Cell.digit.Admits b :=
    fun b hb => isDigit_of_mem_flags o.isFlag_lastFlags hb
  have hbytes : ∀ t : Text, ∀ b ∈ t, Cell.byte.Admits b := fun _ _ _ => trivial
  -- part by part, each over as many cells
  apply List.rel_append (admits_replicate (hbytes _) o.length_names)
  apply List.rel_append (admits_replicate hfirst o.length_firstText)
  apply List.rel_append (admits_replicate hsign o.length_signText)
  apply List.rel_append (admits_replicate hdwarf rfl)
  apply List.rel_append (admits_replicate (hbytes _) rfl)
  apply List.rel_append (admits_replicate hlast o.length_lastFlags)
  exact admits_replicate (hbytes _) o.length_trapFuncName

theorem length_serialize : o.serializeCompilationOptions.length = o.layout.size := by
  rw [← Layout.length_cells]
  exact o.admits.length_eq.symm

end CompilationOptions

/-! ## One layout -/

section Members

theorem boolText_injective : Function.Injective boolText := by
  intro a b h
  have hvalue := decimal_injective h
  cases a <;> cases b <;> first | rfl | exact absurd hvalue (by decide)

theorem CodeModel.toInt_injective : Function.Injective CodeModel.toInt := by
  intro a b h
  cases a <;> cases b <;> first | rfl | exact absurd h (by decide)

theorem RelocModel.toInt_injective : Function.Injective RelocModel.toInt := by
  intro a b h
  cases a <;> cases b <;> first | rfl | exact absurd h (by decide)

theorem OptLevel.toInt_injective : Function.Injective OptLevel.toInt := by
  intro a b h
  cases a <;> cases b <;> first | rfl | exact absurd h (by decide)

theorem FloatABI.toInt_injective : Function.Injective FloatABI.toInt := by
  intro a b h
  cases a <;> cases b <;> first | rfl | exact absurd h (by decide)

theorem FPOpFusion.toInt_injective : Function.Injective FPOpFusion.toInt := by
  intro a b h
  cases a <;> cases b <;> first | rfl | exact absurd h (by decide)

theorem ThreadModel.toInt_injective : Function.Injective ThreadModel.toInt := by
  intro a b h
  cases a <;> cases b <;> first | rfl | exact absurd h (by decide)

theorem EABI.toInt_injective : Function.Injective EABI.toInt := by
  intro a b h
  cases a <;> cases b <;> first | rfl | exact absurd h (by decide)

theorem DebuggerKind.toInt_injective : Function.Injective DebuggerKind.toInt := by
  intro a b h
  cases a <;> cases b <;> first | rfl | exact absurd h (by decide)

theorem FPDenormal.toInt_injective : Function.Injective FPDenormal.toInt := by
  intro a b h
  cases a <;> cases b <;> first | rfl | exact absurd h (by decide)

theorem ExceptionHandling.toInt_injective : Function.Injective ExceptionHandling.toInt := by
  intro a b h
  cases a <;> cases b <;> first | rfl | exact absurd h (by decide)

end Members

theorem MCOptions.eq_of_parts {o o' : MCOptions} (hflags : o.flags = o'.flags)
    (hdwarf : o.dwarfVersion = o'.dwarfVersion) (habi : o.abiName = o'.abiName) : o = o' := by
  cases o
  cases o'
  simp only [flags, List.cons.injEq, boolText_injective.eq_iff, and_true] at hflags hdwarf habi
  simp only [hflags, hdwarf, habi]

theorem TargetOptions.eq_of_parts {o o' : TargetOptions} (hmath : o.mathFlags = o'.mathFlags)
    (hstack : o.stackAlignmentOverride = o'.stackAlignmentOverride)
    (hcode : o.codeFlags = o'.codeFlags) (hmc : o.mcOptions = o'.mcOptions) : o = o' := by
  cases o
  cases o'
  simp only [mathFlags, codeFlags, List.cons.injEq, boolText_injective.eq_iff,
    decimal_injective.eq_iff, FloatABI.toInt_injective.eq_iff, FPOpFusion.toInt_injective.eq_iff,
    ThreadModel.toInt_injective.eq_iff, EABI.toInt_injective.eq_iff,
    DebuggerKind.toInt_injective.eq_iff, FPDenormal.toInt_injective.eq_iff,
    ExceptionHandling.toInt_injective.eq_iff, and_true] at hmath hstack hcode hmc
  simp only [hmath, hstack, hcode, hmc]

namespace CompilationOptions

/-- The texts in front, by their lengths. -/
theorem names_inj {o o' : CompilationOptions} (hlayout : o.layout = o'.layout)
    (heq : o.names = o'.names) :
    o.targetTriple = o'.targetTriple ∧ o.mArch = o'.mArch ∧ o.mCPU = o'.mCPU ∧
      o.mAttrs = o'.mAttrs := by
  have htriple : o.targetTriple.length = o'.targetTriple.length :=
    congrArg Layout.targetTriple hlayout
  have harch : o.mArch.length = o'.mArch.length := congrArg Layout.mArch hlayout
  have hcpu : o.mCPU.length = o'.mCPU.length := congrArg Layout.mCPU hlayout
  have hattrs : o.mAttrs.map List.length = o'.mAttrs.map List.length :=
    congrArg Layout.mAttrs hlayout
  simp only [names, List.append_assoc] at heq
  obtain ⟨h₁, heq⟩ := List.append_inj heq htriple
  obtain ⟨h₂, heq⟩ := List.append_inj heq harch
  obtain ⟨h₃, heq⟩ := List.append_inj heq hcpu
  exact ⟨h₁, h₂, h₃, List.eq_iff_flatten_eq.mpr ⟨heq, hattrs⟩⟩

/-- A flag that is there in both or in neither. -/
theorem optional_inj {α : Type} {f : α → Text} (hf : Function.Injective f) {a a' : Option α}
    (hsome : a.isSome = a'.isSome) {rest rest' : List Text}
    (heq : (a.map f).toList ++ rest = (a'.map f).toList ++ rest') : a = a' ∧ rest = rest' := by
  cases a with
  | none =>
      cases a' with
      | none => exact ⟨rfl, heq⟩
      | some a' => cases hsome
  | some a =>
      cases a' with
      | none => cases hsome
      | some a' =>
          obtain ⟨hvalue, hrest⟩ := List.cons.inj heq
          exact ⟨congrArg some (hf hvalue), hrest⟩

theorem firstFlags_inj {o o' : CompilationOptions} (hlayout : o.layout = o'.layout)
    (heq : o.firstFlags = o'.firstFlags) :
    o.cmModel = o'.cmModel ∧ o.relocModel = o'.relocModel ∧ o.oLvl = o'.oLvl ∧
      o.tOptions.mathFlags = o'.tOptions.mathFlags := by
  have hreloc : o.relocModel.isSome = o'.relocModel.isSome := congrArg Layout.relocModel hlayout
  have hwritten : Function.Injective fun r : RelocModel => decimal r.toInt :=
    decimal_injective.comp RelocModel.toInt_injective
  simp only [firstFlags, List.append_assoc] at heq
  obtain ⟨hmodel, heq⟩ := List.cons.inj heq
  obtain ⟨hrelocModel, heq⟩ := optional_inj hwritten hreloc heq
  obtain ⟨hlevel, hmath⟩ := List.cons.inj heq
  exact ⟨CodeModel.toInt_injective (decimal_injective hmodel), hrelocModel,
    OptLevel.toInt_injective (decimal_injective hlevel), hmath⟩

theorem lastFlags_inj {o o' : CompilationOptions} (hlayout : o.layout = o'.layout)
    (heq : o.lastFlags = o'.lastFlags) :
    o.noVerify = o'.noVerify ∧ o.disableSimplifyLibCalls = o'.disableSimplifyLibCalls ∧
      o.disableFPElim = o'.disableFPElim ∧ o.disableTailCalls = o'.disableTailCalls ∧
      o.stackRealign = o'.stackRealign := by
  have helim : o.disableFPElim.isSome = o'.disableFPElim.isSome :=
    congrArg Layout.disableFPElim hlayout
  have htail : o.disableTailCalls.isSome = o'.disableTailCalls.isSome :=
    congrArg Layout.disableTailCalls hlayout
  simp only [lastFlags, List.append_assoc] at heq
  obtain ⟨hverify, heq⟩ := List.cons.inj heq
  obtain ⟨hcalls, heq⟩ := List.cons.inj heq
  obtain ⟨hfpElim, heq⟩ := optional_inj boolText_injective helim heq
  obtain ⟨htailCalls, heq⟩ := optional_inj boolText_injective htail heq
  exact ⟨boolText_injective hverify, boolText_injective hcalls, hfpElim, htailCalls,
    boolText_injective (List.cons.inj heq).1⟩

theorem trapFuncName_inj {o o' : CompilationOptions} (hlayout : o.layout = o'.layout)
    (heq : o.trapFuncName.getD [] = o'.trapFuncName.getD []) :
    o.trapFuncName = o'.trapFuncName := by
  have hname : o.trapFuncName.map List.length = o'.trapFuncName.map List.length :=
    congrArg Layout.trapFuncName hlayout
  cases ho : o.trapFuncName with
  | none =>
      rw [ho] at hname
      cases ho' : o'.trapFuncName with
      | none => rfl
      | some name =>
          rw [ho'] at hname
          cases hname
  | some name =>
      rw [ho] at hname heq
      cases ho' : o'.trapFuncName with
      | none =>
          rw [ho'] at hname
          cases hname
      | some name' =>
          rw [ho'] at heq
          exact congrArg some heq

theorem eq_of_parts {o o' : CompilationOptions}
    (hnames : o.targetTriple = o'.targetTriple ∧ o.mArch = o'.mArch ∧ o.mCPU = o'.mCPU ∧
      o.mAttrs = o'.mAttrs)
    (hmodels : o.cmModel = o'.cmModel ∧ o.relocModel = o'.relocModel ∧ o.oLvl = o'.oLvl)
    (hoptions : o.tOptions = o'.tOptions)
    (hlast : o.noVerify = o'.noVerify ∧ o.disableSimplifyLibCalls = o'.disableSimplifyLibCalls ∧
      o.disableFPElim = o'.disableFPElim ∧ o.disableTailCalls = o'.disableTailCalls ∧
      o.stackRealign = o'.stackRealign)
    (htrap : o.trapFuncName = o'.trapFuncName) : o = o' := by
  cases o
  cases o'
  simp only at hnames hmodels hoptions hlast htrap
  simp only [hnames, hmodels, hoptions, hlast, htrap]

/-- Values of one layout have different strings. -/
theorem serialize_inj_of_layout {o o' : CompilationOptions} (hlayout : o.layout = o'.layout)
    (heq : o.serializeCompilationOptions = o'.serializeCompilationOptions) : o = o' := by
  have hnames : o.names.length = o'.names.length := by
    rw [length_names, length_names, hlayout]
  have hfirst : o.firstFlags.flatten.length = o'.firstFlags.flatten.length := by
    rw [length_firstFlags, length_firstFlags, hlayout]
  have hstack : (decimal (o.tOptions.stackAlignmentOverride.toNat : Int)).length =
      (decimal (o'.tOptions.stackAlignmentOverride.toNat : Int)).length :=
    congrArg Layout.stackAlignmentOverride hlayout
  have hsecond : o.secondFlags.flatten.length = o'.secondFlags.flatten.length := by
    rw [length_secondFlags, length_secondFlags]
  have hsign : o.signText.length = o'.signText.length := by
    rw [length_signText, length_signText, hlayout]
  have hdwarf : (decimal o.tOptions.mcOptions.dwarfVersion).length =
      (decimal o'.tOptions.mcOptions.dwarfVersion).length := by
    have hdigits : (decimal (o.tOptions.mcOptions.dwarfVersion.natAbs : Int)).length =
        (decimal (o'.tOptions.mcOptions.dwarfVersion.natAbs : Int)).length :=
      congrArg Layout.dwarfVersion hlayout
    rw [decimal_eq o.tOptions.mcOptions.dwarfVersion,
      decimal_eq o'.tOptions.mcOptions.dwarfVersion, List.length_append, List.length_append,
      hdigits]
    exact congrArg (· + _) hsign
  have habi : o.tOptions.mcOptions.abiName.length = o'.tOptions.mcOptions.abiName.length :=
    congrArg Layout.abiName hlayout
  have hlast : o.lastFlags.flatten.length = o'.lastFlags.flatten.length := by
    rw [length_lastFlags, length_lastFlags, hlayout]
  -- every part ends where the other's does
  rw [serialize_eq, serialize_eq] at heq
  obtain ⟨hnames, heq⟩ := List.append_inj heq hnames
  obtain ⟨hfirst, heq⟩ := List.append_inj heq hfirst
  obtain ⟨hstack, heq⟩ := List.append_inj heq hstack
  obtain ⟨hsecond, heq⟩ := List.append_inj heq hsecond
  obtain ⟨hdwarf, heq⟩ := List.append_inj heq hdwarf
  obtain ⟨habi, heq⟩ := List.append_inj heq habi
  obtain ⟨hlast, htrap⟩ := List.append_inj heq hlast
  obtain ⟨hmodel, hreloc, hlevel, hmath⟩ :=
    firstFlags_inj hlayout (flags_inj o.isFlag_firstFlags o'.isFlag_firstFlags hfirst)
  obtain ⟨hcode, hmcFlags⟩ := List.append_inj
    (flags_inj o.isFlag_secondFlags o'.isFlag_secondFlags hsecond) rfl
  have hoverride : o.tOptions.stackAlignmentOverride = o'.tOptions.stackAlignmentOverride :=
    UInt32.toNat_inj.mp (decimal_natCast_injective hstack)
  have hmc := MCOptions.eq_of_parts hmcFlags (decimal_injective hdwarf) habi
  have hoptions := TargetOptions.eq_of_parts hmath hoverride hcode hmc
  exact eq_of_parts (names_inj hlayout hnames) ⟨hmodel, hreloc, hlevel⟩ hoptions
    (lastFlags_inj hlayout (flags_inj o.isFlag_lastFlags o'.isFlag_lastFlags hlast))
    (trapFuncName_inj hlayout htrap)

end CompilationOptions

/-- No value is known from its string alone: an empty attribute leaves no trace. -/
theorem exists_same_string (o : CompilationOptions) :
    ∃ o' : CompilationOptions, o' ≠ o ∧
      o'.serializeCompilationOptions = o.serializeCompilationOptions := by
  refine ⟨{ o with mAttrs := o.mAttrs ++ [[]] }, ?_, ?_⟩
  · intro heq
    have hattrs := congrArg (fun o : CompilationOptions => o.mAttrs.length) heq
    simp at hattrs
  · have hflatten : (o.mAttrs ++ [[]]).flatten = o.mAttrs.flatten := by
      rw [List.flatten_append]
      exact List.append_nil _
    unfold CompilationOptions.serializeCompilationOptions
    rw [hflatten]

/-! ## Values that fill a layout -/

namespace Layout

variable (p : Layout) (f : Nat → UInt8)

theorem cells_digit {i : Nat}
    (h : p.names ≤ i ∧ i < p.signPos ∨ p.dwarfStart ≤ i ∧ i < p.abiStart ∨
      p.lastStart ≤ i ∧ i < p.trapStart) : p.cells[i]? = some .digit := by
  simp only [trapStart, lastStart, abiStart, dwarfStart, signPos] at h
  simp only [cells, List.getElem?_append, List.getElem?_replicate, List.length_replicate]
  split_ifs <;> first | rfl | omega

theorem cells_sign (hneg : p.dwarfNegative = true) : p.cells[p.signPos]? = some .sign := by
  simp only [cells, List.getElem?_append, List.getElem?_replicate, List.length_replicate, signPos,
    hneg, Bool.toNat_true]
  split_ifs <;> first | rfl | omega

/-- The DWARF version of ones. -/
def onesVersion : Int :=
  if p.dwarfNegative then -(repunit p.dwarfVersion : Int) else repunit p.dwarfVersion

/-- The value of a layout whose texts are pieces of `f` and whose digits are ones. -/
def fill : CompilationOptions where
  targetTriple := slice f 0 p.targetTriple
  mArch := slice f p.targetTriple p.mArch
  mCPU := slice f (p.targetTriple + p.mArch) p.mCPU
  mAttrs := slices f (p.targetTriple + p.mArch + p.mCPU) p.mAttrs
  cmModel := .jitDefault
  relocModel := if p.relocModel then some .pic else none
  oLvl := .less
  tOptions :=
    { printMachineCode := true
      lessPreciseFPMADOption := true
      unsafeFPMath := true
      noInfsFPMath := true
      noNaNsFPMath := true
      noTrappingFPMath := true
      honorSignDependentRoundingFPMathOption := true
      noZerosInBSS := true
      guaranteedTailCallOpt := true
      stackAlignmentOverride := UInt32.ofNat (repunit p.stackAlignmentOverride)
      stackSymbolOrdering := true
      enableFastISel := true
      useInitArray := true
      disableIntegratedAS := true
      compressDebugSections := true
      relaxELFRelocations := true
      functionSections := true
      dataSections := true
      uniqueSectionNames := true
      trapUnreachable := true
      emulatedTLS := true
      enableIPRA := true
      floatABIType := .soft
      allowFPOpFusion := .standard
      threadModel := .single
      eabiVersion := .default
      debuggerTuning := .gdb
      fpDenormalMode := .preserveSign
      exceptionModel := .dwarfCFI
      mcOptions :=
        { sanitizeAddress := true
          mcRelaxAll := true
          mcNoExecStack := true
          mcFatalWarnings := true
          mcNoWarn := true
          mcSaveTempLabels := true
          mcUseDwarfDirectory := true
          mcIncrementalLinkerCompatible := true
          showMCEncoding := true
          showMCInst := true
          asmVerbose := true
          preserveAsmComments := true
          dwarfVersion := p.onesVersion
          abiName := slice f p.abiStart p.abiName } }
  noVerify := true
  disableSimplifyLibCalls := true
  disableFPElim := if p.disableFPElim then some true else none
  disableTailCalls := if p.disableTailCalls then some true else none
  stackRealign := true
  trapFuncName := p.trapFuncName.map (slice f p.trapStart)

/-- The two numbers have as many digits as 32 bits allow. -/
structure Fits (p : Layout) : Prop where
  stack_pos : 0 < p.stackAlignmentOverride
  stack_le : p.stackAlignmentOverride ≤ 10
  dwarf_pos : 0 < p.dwarfVersion
  dwarf_le : p.dwarfVersion ≤ 10

end Layout

theorem CompilationOptions.Valid.fits {o : CompilationOptions} (h : o.Valid) : o.layout.Fits where
  stack_pos := List.length_pos_iff.mpr (decimal_natCast_ne_nil _)
  stack_le := by
    apply length_decimal_le (by decide)
    have hlt := o.tOptions.stackAlignmentOverride.toNat_lt
    omega
  dwarf_pos := List.length_pos_iff.mpr (decimal_natCast_ne_nil _)
  dwarf_le := by
    apply length_decimal_le (by decide)
    have hbound := h
    unfold Valid at hbound
    omega

namespace Layout

variable {p : Layout} {f : Nat → UInt8}

theorem toNat_stack_fill (h : p.Fits) :
    (p.fill f).tOptions.stackAlignmentOverride.toNat = repunit p.stackAlignmentOverride := by
  have hle := repunit_le h.stack_le
  exact UInt32.toNat_ofNat_of_lt' (show _ < UInt32.size by
    unfold UInt32.size
    omega)

theorem natAbs_onesVersion : p.onesVersion.natAbs = repunit p.dwarfVersion := by
  unfold onesVersion
  split
  · omega
  · omega

theorem onesVersion_neg (h : p.Fits) : decide (p.onesVersion < 0) = p.dwarfNegative := by
  have hpos := repunit_pos h.dwarf_pos
  unfold onesVersion
  cases p.dwarfNegative with
  | true => exact decide_eq_true (by simp only [if_true]; omega)
  | false => exact decide_eq_false (by simp only [Bool.false_eq_true, if_false]; omega)

theorem fill_valid (h : p.Fits) : (p.fill f).Valid := by
  have hle := repunit_le h.dwarf_le
  show -2 ^ 31 ≤ p.onesVersion ∧ p.onesVersion < 2 ^ 31
  unfold onesVersion
  split
  · omega
  · omega

theorem layout_fill (h : p.Fits) : (p.fill f).layout = p := by
  have hstack : (decimal ((p.fill f).tOptions.stackAlignmentOverride.toNat : Int)).length =
      p.stackAlignmentOverride := by
    rw [toNat_stack_fill h, decimal_repunit h.stack_pos, List.length_replicate]
  have hdwarf : (decimal (p.onesVersion.natAbs : Int)).length = p.dwarfVersion := by
    rw [natAbs_onesVersion, decimal_repunit h.dwarf_pos, List.length_replicate]
  have htrap : (p.trapFuncName.map (slice f p.trapStart)).map List.length = p.trapFuncName := by
    cases p.trapFuncName with
    | none => rfl
    | some n => exact congrArg some (length_slice _ _ _)
  have hopt : ∀ (b : Bool) {α : Type} (a : α), (if b then some a else none).isSome = b := by
    intro b α a
    cases b with
    | false => rfl
    | true => rfl
  have hneg : decide ((p.fill f).tOptions.mcOptions.dwarfVersion < 0) = p.dwarfNegative :=
    onesVersion_neg h
  unfold CompilationOptions.layout
  rw [hstack, hneg]
  simp only [fill, length_slice, map_length_slices, hopt, hdwarf, htrap]

theorem names_fill : (p.fill f).names = slice f 0 p.names := by
  show slice f 0 p.targetTriple ++ slice f p.targetTriple p.mArch ++
    slice f (p.targetTriple + p.mArch) p.mCPU ++
    (slices f (p.targetTriple + p.mArch + p.mCPU) p.mAttrs).flatten = slice f 0 p.names
  rw [flatten_slices, slice_append f (Nat.zero_add _), slice_append f (Nat.zero_add _),
    slice_append f (Nat.zero_add _)]
  rfl

theorem boolText_true : boolText true = [hexDigit 1] := by
  decide

theorem decimal_one : decimal 1 = [hexDigit 1] := by
  decide

theorem ones_firstFlags : ∀ t ∈ (p.fill f).firstFlags, t = [hexDigit 1] := by
  have hmath : ∀ t ∈ (p.fill f).tOptions.mathFlags, t = [hexDigit 1] := by
    simp [TargetOptions.mathFlags, fill, boolText_true]
  intro t ht
  rcases List.mem_append.mp ht with ht | ht
  · revert ht
    simp only [fill]
    cases p.relocModel with
    | true => simp [CodeModel.toInt, RelocModel.toInt, OptLevel.toInt, decimal_one]
    | false => simp [CodeModel.toInt, OptLevel.toInt, decimal_one]
  · exact hmath t ht

theorem ones_secondFlags : ∀ t ∈ (p.fill f).secondFlags, t = [hexDigit 1] := by
  have hcode : ∀ t ∈ (p.fill f).tOptions.codeFlags, t = [hexDigit 1] := by
    simp [TargetOptions.codeFlags, fill, boolText_true, FloatABI.toInt, FPOpFusion.toInt,
      ThreadModel.toInt, EABI.toInt, DebuggerKind.toInt, FPDenormal.toInt, ExceptionHandling.toInt,
      decimal_one]
  have hmc : ∀ t ∈ (p.fill f).tOptions.mcOptions.flags, t = [hexDigit 1] := by
    simp [MCOptions.flags, fill, boolText_true]
  intro t ht
  rcases List.mem_append.mp ht with ht | ht
  · exact hcode t ht
  · exact hmc t ht

theorem ones_lastFlags : ∀ t ∈ (p.fill f).lastFlags, t = [hexDigit 1] := by
  simp only [CompilationOptions.lastFlags, fill]
  cases p.disableFPElim with
  | true => cases p.disableTailCalls <;> simp [boolText_true]
  | false => cases p.disableTailCalls <;> simp [boolText_true]

theorem firstText_fill (h : p.Fits) :
    (p.fill f).firstText = List.replicate p.firstDigits (hexDigit 1) := by
  have hlength := (p.fill f).length_firstText
  rw [layout_fill h] at hlength
  apply List.eq_replicate_iff.mpr
  refine ⟨hlength, ?_⟩
  intro b hb
  rcases List.mem_append.mp hb with hb | hb
  · exact eq_of_mem_flags ones_firstFlags hb
  · rcases List.mem_append.mp hb with hb | hb
    · rw [toNat_stack_fill h, decimal_repunit h.stack_pos] at hb
      exact List.eq_of_mem_replicate hb
    · exact eq_of_mem_flags ones_secondFlags hb

theorem lastFlags_fill (h : p.Fits) :
    (p.fill f).lastFlags.flatten = List.replicate p.lastDigits (hexDigit 1) := by
  have hlength := (p.fill f).length_lastFlags
  rw [layout_fill h] at hlength
  apply List.eq_replicate_iff.mpr
  exact ⟨hlength, fun b hb => eq_of_mem_flags ones_lastFlags hb⟩

theorem signText_fill (h : p.Fits) (hsign : p.dwarfNegative = true → f p.signPos = minus) :
    (p.fill f).signText = slice f p.signPos p.dwarfNegative.toNat := by
  have hneg := onesVersion_neg h
  show (if p.onesVersion < 0 then [minus] else []) = _
  cases hp : p.dwarfNegative with
  | true =>
      rw [hp] at hneg
      rw [if_pos (of_decide_eq_true hneg), ← hsign hp]
      rfl
  | false =>
      rw [hp] at hneg
      rw [if_neg (of_decide_eq_false hneg)]
      rfl

theorem trapFuncName_fill :
    (p.fill f).trapFuncName.getD [] = slice f p.trapStart (p.trapFuncName.getD 0) := by
  show (p.trapFuncName.map (slice f p.trapStart)).getD [] = _
  cases p.trapFuncName with
  | none => rfl
  | some n => rfl

/-- A text with ones for the digits and a sign for the sign is the string of a value. -/
theorem serialize_fill (h : p.Fits) (hdigit : ∀ i, p.cells[i]? = some .digit → f i = hexDigit 1)
    (hsign : p.dwarfNegative = true → f p.signPos = minus) :
    (p.fill f).serializeCompilationOptions = slice f 0 p.size := by
  have hfirst : slice f p.names p.firstDigits = (p.fill f).firstText := by
    rw [firstText_fill h]
    apply slice_eq_replicate
    intro i hle hlt
    exact hdigit i (p.cells_digit (Or.inl ⟨hle, hlt⟩))
  have hdwarf : slice f p.dwarfStart p.dwarfVersion =
      decimal ((p.fill f).tOptions.mcOptions.dwarfVersion.natAbs : Int) := by
    show _ = decimal (p.onesVersion.natAbs : Int)
    rw [natAbs_onesVersion, decimal_repunit h.dwarf_pos]
    apply slice_eq_replicate
    intro i hle hlt
    exact hdigit i (p.cells_digit (Or.inr (Or.inl ⟨hle, hlt⟩)))
  have hlast : slice f p.lastStart p.lastDigits = (p.fill f).lastFlags.flatten := by
    rw [lastFlags_fill h]
    apply slice_eq_replicate
    intro i hle hlt
    exact hdigit i (p.cells_digit (Or.inr (Or.inr ⟨hle, hlt⟩)))
  have habi : slice f p.abiStart p.abiName = (p.fill f).tOptions.mcOptions.abiName := rfl
  rw [CompilationOptions.serialize_eq_cells, names_fill, ← hfirst, signText_fill h hsign, ← hdwarf,
    ← habi, ← hlast, trapFuncName_fill]
  -- every piece starts where the one before it ends
  rw [slice_append f (show p.lastStart + p.lastDigits = p.trapStart from rfl),
    slice_append f (show p.abiStart + p.abiName = p.lastStart from rfl),
    slice_append f (show p.dwarfStart + p.dwarfVersion = p.abiStart from rfl),
    slice_append f (show p.signPos + p.dwarfNegative.toNat = p.dwarfStart from rfl),
    slice_append f (show p.names + p.firstDigits = p.signPos from rfl),
    slice_append f (Nat.zero_add _)]
  apply congrArg (slice f 0)
  simp only [size, trapStart, lastStart, abiStart, dwarfStart, signPos]
  omega

end Layout

/-! ## Which layouts are told apart -/

/-- Ones, with the signs of two layouts. -/
def signed (p q : Layout) (i : Nat) : UInt8 :=
  if (p.dwarfNegative = true ∧ i = p.signPos) ∨ (q.dwarfNegative = true ∧ i = q.signPos) then minus
  else hexDigit 1

theorem signed_comm (p q : Layout) : signed p q = signed q p := by
  funext i
  simp only [signed, or_comm]

theorem serialize_signed {p q : Layout} (hp : p.Fits) (hsign : ¬ SignOnDigit q p) :
    (p.fill (signed p q)).serializeCompilationOptions = slice (signed p q) 0 p.size := by
  apply Layout.serialize_fill hp
  · intro i hi
    apply if_neg
    rintro (⟨hneg, rfl⟩ | ⟨hneg, rfl⟩)
    · rw [p.cells_sign hneg] at hi
      cases hi
    · exact hsign ⟨hneg, hi⟩
  · intro hneg
    exact if_pos (Or.inl ⟨hneg, rfl⟩)

/-- Where the layouts are not separated, two different values have one string. -/
theorem exists_collision {p q : Layout} (hp : p.Fits) (hq : q.Fits) (h : ¬ Separated p q) :
    ∃ o o' : CompilationOptions, o.Valid ∧ o'.Valid ∧ o.layout = p ∧ o'.layout = q ∧ o ≠ o' ∧
      o.serializeCompilationOptions = o'.serializeCompilationOptions := by
  simp only [Separated, not_or, not_not] at h
  obtain ⟨hne, hsize, hpq, hqp⟩ := h
  refine ⟨p.fill (signed p q), q.fill (signed p q), Layout.fill_valid hp, Layout.fill_valid hq,
    Layout.layout_fill hp, Layout.layout_fill hq, ?_, ?_⟩
  · intro heq
    have hlayout := congrArg CompilationOptions.layout heq
    rw [Layout.layout_fill hp, Layout.layout_fill hq] at hlayout
    exact hne hlayout
  · rw [serialize_signed hp hqp, signed_comm, serialize_signed hq hpq, hsize]

/-- Values of separated layouts have different strings. -/
theorem serialize_ne_of_separated {o o' : CompilationOptions}
    (h : Separated o.layout o'.layout) (hne : o ≠ o') :
    o.serializeCompilationOptions ≠ o'.serializeCompilationOptions := by
  intro heq
  rcases h with hsame | hsize | ⟨hneg, hdigit⟩ | ⟨hneg, hdigit⟩
  · exact hne (CompilationOptions.serialize_inj_of_layout hsame heq)
  · apply hsize
    rw [← o.length_serialize, heq, o'.length_serialize]
  · exact ne_of_sign_of_digit o.admits o'.admits (o.layout.cells_sign hneg) hdigit heq
  · exact ne_of_sign_of_digit o'.admits o.admits (o'.layout.cells_sign hneg) hdigit heq.symm

/-- Just where two layouts are separated, different values of them have different
strings. -/
theorem told_apart_iff {o₁ o₂ : CompilationOptions} (h₁ : o₁.Valid) (h₂ : o₂.Valid) :
    (∀ o o' : CompilationOptions, o.Valid → o'.Valid → o.layout = o₁.layout →
        o'.layout = o₂.layout → o ≠ o' →
        o.serializeCompilationOptions ≠ o'.serializeCompilationOptions) ↔
      Separated o₁.layout o₂.layout := by
  constructor
  · intro h
    by_contra hnot
    obtain ⟨o, o', ho, ho', hlayout, hlayout', hne, heq⟩ := exists_collision h₁.fits h₂.fits hnot
    exact h o o' ho ho' hlayout hlayout' hne heq
  · intro h o o' _ _ hlayout hlayout' hne
    apply serialize_ne_of_separated _ hne
    rw [hlayout, hlayout']
    exact h

/-- The defaults and the defaults without the verifier have different strings; a text moved
from one member to the next is not told apart, so its two layouts are not separated. -/
theorem told_apart_iff_llcDefaults :
    CompilationOptions.llcDefaults.serializeCompilationOptions ≠
        CompilationOptions.serializeCompilationOptions
          { CompilationOptions.llcDefaults with noVerify := true } ∧
      ¬ Separated
        (CompilationOptions.layout
          { CompilationOptions.llcDefaults with targetTriple := ascii "x86_64" })
        (CompilationOptions.layout
          { CompilationOptions.llcDefaults with mArch := ascii "x86_64" }) := by
  constructor
  · exact (told_apart_iff ⟨by decide, by decide⟩ ⟨by decide, by decide⟩).mpr (Or.inl rfl) _ _
      ⟨by decide, by decide⟩ ⟨by decide, by decide⟩ rfl rfl (by decide)
  · intro hsep
    refine (told_apart_iff ⟨by decide, by decide⟩ ⟨by decide, by decide⟩).mpr hsep _ _
      ⟨by decide, by decide⟩ ⟨by decide, by decide⟩ rfl rfl (by decide) ?_
    decide

/-- A text moved from one member to the next. -/
theorem moved_text_collides :
    { CompilationOptions.llcDefaults with targetTriple := ascii "x86_64" } ≠
        { CompilationOptions.llcDefaults with mArch := ascii "x86_64" } ∧
      CompilationOptions.serializeCompilationOptions
          { CompilationOptions.llcDefaults with targetTriple := ascii "x86_64" } =
        CompilationOptions.serializeCompilationOptions
          { CompilationOptions.llcDefaults with mArch := ascii "x86_64" } := by
  constructor
  · decide
  · decide

end StaticCodeGen
end AllvmTools
