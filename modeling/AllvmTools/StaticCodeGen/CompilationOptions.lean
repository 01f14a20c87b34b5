import AllvmTools.Library.Text

/-!
# Compilation options and their serialization

`CompilationOptions` with every member `serializeCompilationOptions` emits, the
defaults of its constructor, and the serialization itself: the members one
behind the other, without separators or lengths.
-/

namespace AllvmTools
namespace StaticCodeGen

open Library Library.Text

/-! ## Enumerations of the code generator -/

inductive CodeModel where
  | default | jitDefault | small | kernel | medium | large
deriving DecidableEq, Repr

inductive RelocModel where
  | static | pic | dynamicNoPIC | ropi | rwpi | ropiRwpi
deriving DecidableEq, Repr

inductive OptLevel where
  | none | less | default | aggressive
deriving DecidableEq, Repr

inductive FloatABI where
  | default | soft | hard
deriving DecidableEq, Repr

inductive FPOpFusion where
  | fast | standard | strict
deriving DecidableEq, Repr

inductive ThreadModel where
  | posix | single
deriving DecidableEq, Repr

inductive EABI where
  | unknown | default | eabi4 | eabi5 | gnu
deriving DecidableEq, Repr

inductive DebuggerKind where
  | default | gdb | lldb | sce
deriving DecidableEq, Repr

inductive FPDenormal where
  | ieee | preserveSign | positiveZero
deriving DecidableEq, Repr

inductive ExceptionHandling where
  | none | dwarfCFI | sjLj | arm | winEH
deriving DecidableEq, Repr

/-! ## The option records -/

/-- `MCTargetOptions`. -/
structure MCOptions where
  sanitizeAddress : Bool
  mcRelaxAll : Bool
  mcNoExecStack : Bool
  mcFatalWarnings : Bool
  mcNoWarn : Bool
  mcSaveTempLabels : Bool
  mcUseDwarfDirectory : Bool
  mcIncrementalLinkerCompatible : Bool
  showMCEncoding : Bool
  showMCInst : Bool
  asmVerbose : Bool
  preserveAsmComments : Bool
  dwarfVersion : Int
  abiName : Text
deriving DecidableEq, Repr

/-- `TargetOptions`; `Reciprocals` is not part of the serialization and is left
out. -/
structure TargetOptions where
  printMachineCode : Bool
  lessPreciseFPMADOption : Bool
  unsafeFPMath : Bool
  noInfsFPMath : Bool
  noNaNsFPMath : Bool
  noTrappingFPMath : Bool
  honorSignDependentRoundingFPMathOption : Bool
  noZerosInBSS : Bool
  guaranteedTailCallOpt : Bool
  stackAlignmentOverride : UInt32
  stackSymbolOrdering : Bool
  enableFastISel : Bool
  useInitArray : Bool
  disableIntegratedAS : Bool
  compressDebugSections : Bool
  relaxELFRelocations : Bool
  functionSections : Bool
  dataSections : Bool
  uniqueSectionNames : Bool
  trapUnreachable : Bool
  emulatedTLS : Bool
  enableIPRA : Bool
  floatABIType : FloatABI
  allowFPOpFusion : FPOpFusion
  threadModel : ThreadModel
  eabiVersion : EABI
  debuggerTuning : DebuggerKind
  fpDenormalMode : FPDenormal
  exceptionModel : ExceptionHandling
  mcOptions : MCOptions
deriving DecidableEq, Repr

structure CompilationOptions where
  targetTriple : Text
  mArch : Text
  mCPU : Text
  mAttrs : List Text
  cmModel : CodeModel
  relocModel : Option RelocModel
  oLvl : OptLevel
  tOptions : TargetOptions
  noVerify : Bool
  disableSimplifyLibCalls : Bool
  disableFPElim : Option Bool
  disableTailCalls : Option Bool
  stackRealign : Bool
  trapFuncName : Option Text
deriving DecidableEq, Repr

/-- The values the library's own constructor gives. -/
def MCOptions.init : MCOptions where
  sanitizeAddress := false
  mcRelaxAll := false
  mcNoExecStack := false
  mcFatalWarnings := false
  mcNoWarn := false
  mcSaveTempLabels := false
  mcUseDwarfDirectory := false
  mcIncrementalLinkerCompatible := false
  showMCEncoding := false
  showMCInst := false
  asmVerbose := false
  preserveAsmComments := true
  dwarfVersion := 0
  abiName := []

/-- The values the library's own constructor gives. -/
def TargetOptions.init : TargetOptions where
  printMachineCode := false
  lessPreciseFPMADOption := false
  unsafeFPMath := false
  noInfsFPMath := false
  noNaNsFPMath := false
  noTrappingFPMath := false
  honorSignDependentRoundingFPMathOption := false
  noZerosInBSS := false
  guaranteedTailCallOpt := false
  stackAlignmentOverride := 0
  stackSymbolOrdering := true
  enableFastISel := false
  useInitArray := false
  disableIntegratedAS := false
  compressDebugSections := false
  relaxELFRelocations := false
  functionSections := false
  dataSections := false
  uniqueSectionNames := true
  trapUnreachable := false
  emulatedTLS := false
  enableIPRA := false
  floatABIType := .default
  allowFPOpFusion := .standard
  threadModel := .posix
  eabiVersion := .default
  debuggerTuning := .default
  fpDenormalMode := .ieee
  exceptionModel := .none
  mcOptions := .init

/-- `CompilationOptions::CompilationOptions`: the defaults of llc. -/
def CompilationOptions.llcDefaults : CompilationOptions where
  targetTriple := []
  mArch := []
  mCPU := []
  mAttrs := []
  cmModel := .default
  relocModel := none
  oLvl := .default
  tOptions :=
    { TargetOptions.init with
      useInitArray := true
      mcOptions := { MCOptions.init with asmVerbose := true } }
  noVerify := false
  disableSimplifyLibCalls := false
  disableFPElim := none
  disableTailCalls := none
  stackRealign := false
  trapFuncName := none

/-! ## Serialization -/

def CodeModel.toInt : CodeModel → Int
  | .default => 0 | .jitDefault => 1 | .small => 2 | .kernel => 3 | .medium => 4 | .large => 5

def RelocModel.toInt : RelocModel → Int
  | .static => 0 | .pic => 1 | .dynamicNoPIC => 2 | .ropi => 3 | .rwpi => 4 | .ropiRwpi => 5

def OptLevel.toInt : OptLevel → Int
  | .none => 0 | .less => 1 | .default => 2 | .aggressive => 3

def FloatABI.toInt : FloatABI → Int
  | .default => 0 | .soft => 1 | .hard => 2

def FPOpFusion.toInt : FPOpFusion → Int
  | .fast => 0 | .standard => 1 | .strict => 2

def ThreadModel.toInt : ThreadModel → Int
  | .posix => 0 | .single => 1

def EABI.toInt : EABI → Int
  | .unknown => 0 | .default => 1 | .eabi4 => 2 | .eabi5 => 3 | .gnu => 4

def DebuggerKind.toInt : DebuggerKind → Int
  | .default => 0 | .gdb => 1 | .lldb => 2 | .sce => 3

def FPDenormal.toInt : FPDenormal → Int
  | .ieee => 0 | .preserveSign => 1 | .positiveZero => 2

def ExceptionHandling.toInt : ExceptionHandling → Int
  | .none => 0 | .dwarfCFI => 1 | .sjLj => 2 | .arm => 3 | .winEH => 4

/-- `std::to_string` of a `bool` member, which is promoted to `int`. -/
def boolText (b : Bool) : Text :=
  decimal (if b then 1 else 0)

/-- An optional member is emitted only if it has a value. -/
def optional {α : Type} (f : α → Text) : Option α → Text
  | none => []
  | some a => f a

def MCOptions.serialize (o : MCOptions) : Text :=
  boolText o.sanitizeAddress ++
  boolText o.mcRelaxAll ++
  boolText o.mcNoExecStack ++
  boolText o.mcFatalWarnings ++
  boolText o.mcNoWarn ++
  boolText o.mcSaveTempLabels ++
  boolText o.mcUseDwarfDirectory ++
  boolText o.mcIncrementalLinkerCompatible ++
  boolText o.showMCEncoding ++
  boolText o.showMCInst ++
  boolText o.asmVerbose ++
  boolText o.preserveAsmComments ++
  decimal o.dwarfVersion ++
  o.abiName

def TargetOptions.serialize (o : TargetOptions) : Text :=
  boolText o.printMachineCode ++
  boolText o.lessPreciseFPMADOption ++
  boolText o.unsafeFPMath ++
  boolText o.noInfsFPMath ++
  boolText o.noNaNsFPMath ++
  boolText o.noTrappingFPMath ++
  boolText o.honorSignDependentRoundingFPMathOption ++
  boolText o.noZerosInBSS ++
  boolText o.guaranteedTailCallOpt ++
  decimal (o.stackAlignmentOverride.toNat : Int) ++
  boolText o.stackSymbolOrdering ++
  boolText o.enableFastISel ++
  boolText o.useInitArray ++
  boolText o.disableIntegratedAS ++
  boolText o.compressDebugSections ++
  boolText o.relaxELFRelocations ++
  boolText o.functionSections ++
  boolText o.dataSections ++
  boolText o.uniqueSectionNames ++
  boolText o.trapUnreachable ++
  boolText o.emulatedTLS ++
  boolText o.enableIPRA ++
  decimal o.floatABIType.toInt ++
  decimal o.allowFPOpFusion.toInt ++
  decimal o.threadModel.toInt ++
  decimal o.eabiVersion.toInt ++
  decimal o.debuggerTuning.toInt ++
  decimal o.fpDenormalMode.toInt ++
  decimal o.exceptionModel.toInt ++
  o.mcOptions.serialize

/-- `CompilationOptions::serializeCompilationOptions`. -/
def CompilationOptions.serializeCompilationOptions (o : CompilationOptions) : Text :=
  o.targetTriple ++
  o.mArch ++
  o.mCPU ++
  o.mAttrs.flatten ++
  decimal o.cmModel.toInt ++
  optional (fun r : RelocModel => decimal r.toInt) o.relocModel ++
  decimal o.oLvl.toInt ++
  o.tOptions.serialize ++
  boolText o.noVerify ++
  boolText o.disableSimplifyLibCalls ++
  optional boolText o.disableFPElim ++
  optional boolText o.disableTailCalls ++
  boolText o.stackRealign ++
  optional id o.trapFuncName

end StaticCodeGen
end AllvmTools
