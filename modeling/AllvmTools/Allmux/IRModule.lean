import Mathlib.Data.Set.Finite.Basic
import AllvmTools.Library.Text

/-!
# Modules as the multiplexer sees them

The symbol table of an LLVM module with linkage and visibility, the arrays of
global constructors and destructors, and the few operations of LLVM's API on
them: `getOrInsertFunction`, `setName`, `setLinkage`.  Instructions stay opaque,
except in the functions the multiplexer makes itself.

* `symbols_rename` — what a rename does to the symbol table.
* `exports_replaceCtorsDtors` — what a module exports once its constructor and
  destructor functions were made.
-/

namespace AllvmTools
namespace Allmux

open Library

/-! ## Symbols -/

inductive Ty where
  | void
  | int (bits : Nat)
  | pointer (pointee : Ty)
  | other (code : Nat)
deriving DecidableEq, Repr

structure FunctionType where
  result : Ty
  params : List Ty
  isVarArg : Bool
deriving DecidableEq, Repr

/-- `GlobalValue::LinkageTypes`. -/
inductive Linkage where
  | external
  | availableExternally
  | linkOnceAny
  | linkOnceODR
  | weakAny
  | weakODR
  | appending
  | internal
  | privateLinkage
  | externalWeak
  | common
deriving DecidableEq, Repr

/-- `GlobalValue::isLocalLinkage`. -/
def Linkage.isLocal : Linkage → Bool
  | internal => true
  | privateLinkage => true
  | _ => false

/-- `GlobalValue::VisibilityTypes`. -/
inductive Visibility where
  | defaultVisibility
  | hidden
  | protectedVisibility
deriving DecidableEq, Repr

/-- The second member of an entry of a constructor array. -/
inductive CtorFn where
  | null
  | function (name : Text)
  /-- A function behind pointer casts. -/
  | cast (name : Text)
  | other (code : Nat)
deriving DecidableEq, Repr

/-- A basic block: opaque, or calls followed by a return. -/
inductive BasicBlock (β : Type) where
  | code (instructions : β)
  | calls (callees : List CtorFn)
deriving DecidableEq, Repr

/-- What a symbol stands for. -/
inductive Content (β : Type) where
  | function (type : FunctionType) (blocks : List (BasicBlock β))
  | variable (initializer : Option β)
  | alias (aliasee : β)
  | ifunc (resolver : β)
deriving DecidableEq, Repr

structure Global (β : Type) where
  content : Content β
  linkage : Linkage
  visibility : Visibility
deriving DecidableEq, Repr

namespace Global

variable {β : Type}

/-- `GlobalValue::isDeclaration`. -/
def isDeclaration (g : Global β) : Bool :=
  match g.content with
  | .function _ blocks => blocks.isEmpty
  | .variable initializer => initializer.isNone
  | _ => false

/-- `GlobalValue::setLinkage`: local symbols have default visibility. -/
def setLinkage (g : Global β) (linkage : Linkage) : Global β :=
  { g with
    linkage := linkage
    visibility := if linkage.isLocal then .defaultVisibility else g.visibility }

/-- `hasExternalLinkage`. -/
def isExternal (g : Global β) : Bool :=
  decide (g.linkage = .external)

end Global

/-! ## Constructor arrays -/

/-- An entry of `llvm.global_ctors` or `llvm.global_dtors`. -/
inductive CtorElem where
  /-- `ConstantAggregateZero`. -/
  | zero
  | struct (priority : Nat) (fn : CtorFn)
deriving DecidableEq, Repr

inductive CtorInit where
  /-- `ConstantAggregateZero`. -/
  | zero
  | array (elems : List CtorElem)
deriving DecidableEq, Repr

structure CtorArray where
  /-- `hasUniqueInitializer`. -/
  unique : Bool
  init : CtorInit
deriving DecidableEq, Repr

/-! ## Modules -/

/-- A module; `β` is what instructions and initializers are. -/
structure IRModule (β : Type) where
  symbols : Text → Option (Global β)
  finite : {name | (symbols name).isSome = true}.Finite
  ctors : Option CtorArray
  dtors : Option CtorArray
  /-- Its function bodies can be read. -/
  materializes : Bool

/-- The type of constructor and destructor functions. -/
def voidFn : FunctionType :=
  ⟨.void, [], false⟩

namespace IRModule

variable {β : Type}

/-- `getFunction`: the type, if the name stands for a function. -/
def getFunction (m : IRModule β) (name : Text) : Option FunctionType :=
  match m.symbols name with
  | none => none
  | some g =>
      match g.content with
      | .function type _ => some type
      | _ => none

/-- The module defines the name, with external linkage. -/
def Exports (m : IRModule β) (name : Text) : Prop :=
  ∃ g, m.symbols name = some g ∧ g.isDeclaration = false ∧ g.isExternal = true

/-- `getOrInsertFunction` for a function without parameters and result, as a
function: one of another type, and any other symbol, comes back as a cast, which
is none. -/
def getOrInsertVoidFn (m : IRModule β) (name : Text) : Option (Global β) :=
  match m.symbols name with
  | none => some ⟨.function voidFn [], .external, .defaultVisibility⟩
  | some g =>
      match g.content with
      | .function type _ => if type = voidFn then some g else none
      | _ => none

/-- `processGlobal` and the pass before it apply one function to all symbols. -/
def mapSymbols (m : IRModule β) (f : Text → Global β → Global β) : IRModule β :=
  { m with
    symbols := fun name => (m.symbols name).map (f name)
    finite := by
      simp only [Option.isSome_map]
      exact m.finite }

/-- The symbol of this name is now `g`. -/
def setSymbol (m : IRModule β) (name : Text) (g : Option (Global β)) : IRModule β :=
  { m with
    symbols := Function.update m.symbols name g
    finite := by
      apply (m.finite.insert name).subset
      intro other hother
      by_cases hname : other = name
      · exact Or.inl hname
      · right
        simpa [Function.update_of_ne hname] using hother }

@[simp] theorem symbols_setSymbol_self (m : IRModule β) (name : Text) (g : Option (Global β)) :
    (m.setSymbol name g).symbols name = g :=
  Function.update_self ..

theorem symbols_setSymbol_of_ne (m : IRModule β) {name other : Text} (g : Option (Global β))
    (h : other ≠ name) : (m.setSymbol name g).symbols other = m.symbols other :=
  Function.update_of_ne h ..

@[simp] theorem symbols_mapSymbols (m : IRModule β) (f : Text → Global β → Global β)
    (name : Text) : (m.mapSymbols f).symbols name = (m.symbols name).map (f name) :=
  rfl

/-! ## Names -/

/-- The names tried for a global whose name is taken. -/
def numbered (name : Text) (k : Nat) : Text :=
  name ++ ascii "." ++ Text.decimal (k + 1 : Nat)

theorem exists_free (m : IRModule β) (name : Text) :
    ∃ k, (m.symbols (numbered name k)).isNone = true := by
  by_contra htaken
  simp only [not_exists, Bool.not_eq_true, Option.isNone_eq_false_iff] at htaken
  have hinjective : Function.Injective (numbered name) := by
    intro k k' h
    have hnumber := List.append_cancel_left h
    exact Nat.succ_injective (Text.decimal_natCast_injective hnumber)
  exact Set.infinite_of_injective_forall_mem hinjective htaken m.finite

/-- `makeUniqueName`, where the name is taken. -/
def freeName (m : IRModule β) (name : Text) : Text :=
  if (m.symbols name).isNone = true then name
  else numbered name (Nat.find (m.exists_free name))

theorem symbols_freeName (m : IRModule β) (name : Text) :
    m.symbols (m.freeName name) = none := by
  unfold freeName
  split
  · next hfree => exact Option.isNone_iff_eq_none.mp hfree
  · exact Option.isNone_iff_eq_none.mp (Nat.find_spec (m.exists_free name))

/-- Renaming `old`, whose name is freed first: the new name and the module. -/
def rename (m : IRModule β) (old name : Text) : Text × IRModule β :=
  let freed := m.setSymbol old none
  (freed.freeName name, freed.setSymbol (freed.freeName name) (m.symbols old))

theorem symbols_rename (m : IRModule β) (old name other : Text) :
    (m.rename old name).2.symbols other =
      if other = (m.rename old name).1 then m.symbols old
      else if other = old then none
      else m.symbols other := by
  unfold rename
  dsimp only
  split
  · next hnew => rw [hnew, symbols_setSymbol_self]
  · next hnew =>
      rw [symbols_setSymbol_of_ne _ _ hnew]
      split
      · next hold => rw [hold, symbols_setSymbol_self]
      · next hold => rw [symbols_setSymbol_of_ne _ _ hold]

end IRModule

/-! ## Constructor functions -/

namespace CtorArray

/-- What `findGlobalCtorsDtors` accepts of an entry. -/
def accepts : CtorElem → Bool
  | .zero => true
  | .struct _ .null => true
  | .struct priority (.function _) => decide (priority = 65535)
  | .struct priority (.cast _) => decide (priority = 65535)
  | .struct _ (.other _) => false

/-- `findGlobalCtorsDtors`: `none` is its error, the inner `none` no array. -/
def find : Option CtorArray → Option (Option CtorArray)
  | none => some none
  | some array =>
      if array.unique then
        match array.init with
        | .zero => some (some array)
        | .array elems => if elems.all accepts then some (some array) else none
      else
        none

/-- The functions of an array's entries; a zero entry is no struct, and the cast
to one fails. -/
def fns : List CtorElem → Option (List CtorFn)
  | [] => some []
  | .zero :: _ => none
  | .struct _ fn :: rest => (fns rest).map (fn :: ·)

/-- `parseGlobalCtorDtors`. -/
def parse (array : CtorArray) : Option (List CtorFn) :=
  match array.init with
  | .zero => some []
  | .array elems => fns elems

end CtorArray

namespace IRModule

variable {β : Type}

/-- `createCtorDtorFunc`: the block goes behind those the function already has. -/
def createCtorDtorFunc (fns : List CtorFn) (m : IRModule β) (name : Text) :
    Option (IRModule β) :=
  match m.getOrInsertVoidFn name with
  | none => none
  | some g =>
      match g.content with
      | .function type blocks =>
          some (m.setSymbol name
            (some { g with content := .function type (blocks ++ [.calls fns]) }))
      | _ => none

/-- `findGlobalCtors`, and `replaceCtorsDtorsGV` with what it found. -/
def replaceCtors (m : IRModule β) (name : Text) : Option (IRModule β) :=
  match CtorArray.find m.ctors with
  | none => none
  | some none => m.createCtorDtorFunc [] name
  | some (some array) =>
      match array.parse with
      | none => none
      | some fns => { m with ctors := none }.createCtorDtorFunc fns name

/-- The same for the destructors. -/
def replaceDtors (m : IRModule β) (name : Text) : Option (IRModule β) :=
  match CtorArray.find m.dtors with
  | none => none
  | some none => m.createCtorDtorFunc [] name
  | some (some array) =>
      match array.parse with
      | none => none
      | some fns => { m with dtors := none }.createCtorDtorFunc fns name

/-- The module exports `name`, once the functions `made` are made in it. -/
def ExportsWith (m : IRModule β) (made : List Text) (name : Text) : Prop :=
  match m.symbols name with
  | none => name ∈ made
  | some g => g.isExternal = true ∧ (name ∈ made ∨ g.isDeclaration = false)

theorem exportsWith_nil (m : IRModule β) (name : Text) :
    m.ExportsWith [] name ↔ m.Exports name := by
  unfold ExportsWith Exports
  cases m.symbols name with
  | none => simp
  | some g => simp [and_comm]

/-- What `createCtorDtorFunc` does to the symbols: its function keeps the linkage
it has or gets an external one. -/
theorem symbols_createCtorDtorFunc {fns : List CtorFn} {m m' : IRModule β} {name : Text}
    (h : createCtorDtorFunc fns m name = some m') :
    ∃ g, m' = m.setSymbol name (some g) ∧ g.isDeclaration = false ∧
      (g.isExternal = true ↔ ∀ g' ∈ m.symbols name, g'.isExternal = true) := by
  unfold createCtorDtorFunc at h
  split at h
  · cases h
  next g hg =>
  split at h
  · next type blocks hcontent =>
      cases h
      refine ⟨_, rfl, by simp [Global.isDeclaration], ?_⟩
      unfold getOrInsertVoidFn at hg
      -- a new function is external; one that was there keeps its linkage
      cases hsymbol : m.symbols name with
      | none =>
          rw [hsymbol] at hg
          cases hg
          simp [Global.isExternal]
      | some g' =>
          rw [hsymbol] at hg
          have hsame : g' = g := by
            dsimp only at hg
            split at hg
            · split at hg
              · exact Option.some.inj hg
              · cases hg
            · cases hg
          subst hsame
          simp [Global.isExternal]
  · cases h

theorem exportsWith_createCtorDtorFunc {fns : List CtorFn} {m m' : IRModule β} {name : Text}
    (h : createCtorDtorFunc fns m name = some m') (made : List Text) (n : Text) :
    m'.ExportsWith made n ↔ m.ExportsWith (name :: made) n := by
  obtain ⟨g, rfl, hdefined, hexternal⟩ := symbols_createCtorDtorFunc h
  unfold ExportsWith
  by_cases hn : n = name
  · subst hn
    rw [symbols_setSymbol_self]
    cases hsymbol : m.symbols n with
    | none =>
        rw [hsymbol] at hexternal
        simp [hdefined, hexternal]
    | some g' =>
        rw [hsymbol] at hexternal
        simp [hdefined, hexternal]
  · rw [symbols_setSymbol_of_ne _ _ hn]
    simp [hn]

theorem exportsWith_replaceCtors {m m' : IRModule β} {name : Text}
    (h : m.replaceCtors name = some m') (made : List Text) (n : Text) :
    m'.ExportsWith made n ↔ m.ExportsWith (name :: made) n := by
  unfold replaceCtors at h
  split at h
  · cases h
  · exact exportsWith_createCtorDtorFunc h made n
  · split at h
    · cases h
    · exact exportsWith_createCtorDtorFunc h made n

theorem exportsWith_replaceDtors {m m' : IRModule β} {name : Text}
    (h : m.replaceDtors name = some m') (made : List Text) (n : Text) :
    m'.ExportsWith made n ↔ m.ExportsWith (name :: made) n := by
  unfold replaceDtors at h
  split at h
  · cases h
  · exact exportsWith_createCtorDtorFunc h made n
  · split at h
    · cases h
    · exact exportsWith_createCtorDtorFunc h made n

/-- What a module exports once both functions were made in it. -/
theorem exports_replaceCtorsDtors {m m₁ m' : IRModule β} {ctorsName dtorsName : Text}
    (hctors : m.replaceCtors ctorsName = some m₁) (hdtors : m₁.replaceDtors dtorsName = some m')
    (n : Text) : m'.Exports n ↔ m.ExportsWith [ctorsName, dtorsName] n := by
  rw [← exportsWith_nil, exportsWith_replaceDtors hdtors, exportsWith_replaceCtors hctors]

end IRModule

end Allmux
end AllvmTools
