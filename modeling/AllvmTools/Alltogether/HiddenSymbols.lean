import AllvmTools.Allmux.Isolation

/-!
# Hidden symbols of a merged program

`alltogether` makes hidden definitions internal before it hands a module to the
code generator.

* `symbols_sweep` — the three loops over a module, symbol by symbol.
* `addModules_eq_some` — the code generator holds the modules of the allexe, swept.
* `staysPrivate_iff` — no hidden definition can be seen from another module, just
  where none is an indirect function, or a function `main` behind the first module.
* `hidden_ifunc_is_seen` — two modules with a hidden indirect function of one name.
-/

namespace AllvmTools
namespace Alltogether

open Library Library.Files Archive Allmux

variable {γ : Type}

/-! ## The sweep -/

/-- `processGlobal`. -/
def processGlobal (noInternalizeHidden : Bool) (g : Global γ) : Global γ :=
  if !noInternalizeHidden && decide (g.visibility = .hidden) && !g.isDeclaration then
    g.setLinkage .internal
  else
    g

/-- The loop over the functions. -/
def sweepFunctions (noInternalizeHidden : Bool) (m : IRModule γ) : IRModule γ :=
  m.mapSymbols fun name g =>
    match g.content with
    | .function _ _ => if name ≠ mainText then processGlobal noInternalizeHidden g else g
    | _ => g

/-- The loop over `globals()`. -/
def sweepVariables (noInternalizeHidden : Bool) (m : IRModule γ) : IRModule γ :=
  m.mapSymbols fun _ g =>
    match g.content with
    | .variable _ => processGlobal noInternalizeHidden g
    | _ => g

/-- The loop over `aliases()`. -/
def sweepAliases (noInternalizeHidden : Bool) (m : IRModule γ) : IRModule γ :=
  m.mapSymbols fun _ g =>
    match g.content with
    | .alias _ => processGlobal noInternalizeHidden g
    | _ => g

def sweep (noInternalizeHidden : Bool) (m : IRModule γ) : IRModule γ :=
  sweepAliases noInternalizeHidden
    (sweepVariables noInternalizeHidden (sweepFunctions noInternalizeHidden m))

/-- The loop of `main` over the modules of the allexe, with those that were added
before: `none` is an error exit.  `read` is `LTOModule::createFromBuffer`, and
`takes` is what `LTOCodeGenerator::addModule` returns. -/
def addModules (read : Bytes → Option (IRModule γ))
    (takes : List (IRModule γ) → IRModule γ → Bool) (noInternalizeHidden : Bool)
    (added : List (IRModule γ)) : List (Entry Bytes) → Option (List (IRModule γ))
  | [] => some added
  | entry :: rest =>
      match read entry.contents with
      | none => none
      | some m =>
          if takes added (sweep noInternalizeHidden m) then
            addModules read takes noInternalizeHidden
              (added ++ [sweep noInternalizeHidden m]) rest
          else
            none

/-! ## What the sweep does -/

/-- It is a function. -/
def isFunction (g : Global γ) : Bool :=
  match g.content with
  | .function _ _ => true
  | _ => false

/-- No loop of the sweep processes this symbol. -/
def isSkipped (name : Text) (g : Global γ) : Bool :=
  g.isIFunc || (isFunction g && decide (name = mainText))

@[simp] theorem content_processGlobal (noInternalizeHidden : Bool) (g : Global γ) :
    (processGlobal noInternalizeHidden g).content = g.content := by
  unfold processGlobal
  split
  · rfl
  · rfl

theorem symbols_sweep (noInternalizeHidden : Bool) (m : IRModule γ) (name : Text) :
    (sweep noInternalizeHidden m).symbols name =
      (m.symbols name).map fun g =>
        if isSkipped name g then g else processGlobal noInternalizeHidden g := by
  unfold sweep sweepAliases sweepVariables sweepFunctions
  simp only [IRModule.symbols_mapSymbols, Option.map_map]
  apply congrArg (Option.map · (m.symbols name))
  funext g
  simp only [Function.comp_apply, isSkipped, isFunction, Global.isIFunc]
  -- each loop takes its own kind of global, and a processed global keeps its kind
  obtain ⟨⟨type, blocks⟩ | initializer | aliasee | resolver, linkage, visibility⟩ := g
  · by_cases hname : name = mainText
    · simp [hname]
    · simp [hname]
  · simp
  · simp
  · simp

/-- A hidden definition is internal after the sweep, just where a loop takes it. -/
theorem linkage_swept_iff {name : Text} {g : Global γ} (hdefined : g.isDeclaration = false)
    (hhidden : g.visibility = .hidden) :
    (if isSkipped name g then g else processGlobal false g).linkage = .internal ↔
      (isSkipped name g = true → g.linkage = .internal) := by
  by_cases hskipped : isSkipped name g = true
  · rw [if_pos hskipped]
    exact ⟨fun h _ => h, fun h => h hskipped⟩
  · rw [if_neg hskipped]
    have hinternal : processGlobal false g = g.setLinkage .internal := by
      simp [processGlobal, hdefined, hhidden]
    rw [hinternal]
    exact ⟨fun _ h => absurd h hskipped, fun _ => rfl⟩

/-- The modules that were added before stay, and each module is added swept. -/
theorem addModules_eq_some {read : Bytes → Option (IRModule γ)}
    {takes : List (IRModule γ) → IRModule γ → Bool} {noInternalizeHidden : Bool}
    {entries : List (Entry Bytes)} {before added : List (IRModule γ)}
    (h : addModules read takes noInternalizeHidden before entries = some added) :
    ∃ ms, added = before ++ ms ∧
      List.Forall₂ (fun entry swept =>
        (read entry.contents).map (sweep noInternalizeHidden) = some swept) entries ms := by
  induction entries generalizing before with
  | nil =>
      cases h
      exact ⟨[], (List.append_nil _).symm, .nil⟩
  | cons entry rest ih =>
      unfold addModules at h
      split at h
      · cases h
      next m hread =>
      split at h
      · obtain ⟨ms, hadded, hms⟩ := ih h
        refine ⟨sweep noInternalizeHidden m :: ms, ?_, .cons (by rw [hread]; rfl) hms⟩
        rw [hadded, List.append_assoc, List.singleton_append]
      · cases h

/-! ## Linking -/

/-- What the references of the linked modules bind to: `target i name` is the module
whose definition a reference to `name` in module `i` gets.  The linker never matches
local symbols by name. -/
structure Binding (modules : List (IRModule γ)) where
  target : Nat → Text → Option Nat
  keepsLocal : ∀ (i : Nat) (m : IRModule γ) (name : Text) (g : Global γ),
    modules[i]? = some m → m.symbols name = some g → g.linkage.isLocal = true →
      target i name = some i
  seesExported : ∀ (i j : Nat) (name : Text), target i name = some j → j ≠ i →
    ∃ m, modules[j]? = some m ∧ m.DefinesNonLocal name

/-- A linker that takes a local symbol of the module, or else the first definition
that others can see. -/
def Binding.first (modules : List (IRModule γ)) : Binding modules where
  target i name :=
    if (modules[i]?.bind (·.symbols name)).any (·.linkage.isLocal) then some i
    else modules.findIdx? fun m =>
      (m.symbols name).any fun g => !g.isDeclaration && !g.linkage.isLocal
  keepsLocal := by
    intro i m name g hm hg hlocal
    rw [if_pos]
    simp [hm, hg, hlocal]
  seesExported := by
    intro i j name htarget hne
    split at htarget
    · exact absurd (Option.some.inj htarget).symm hne
    · obtain ⟨hj, hseen, -⟩ := List.findIdx?_eq_some_iff_getElem.mp htarget
      refine ⟨modules[j], List.getElem?_eq_getElem hj, ?_⟩
      rw [Option.any_eq_true_iff_get] at hseen
      obtain ⟨hsome, hseen⟩ := hseen
      rw [Bool.and_eq_true, Bool.not_eq_true', Bool.not_eq_true'] at hseen
      exact ⟨_, (Option.some_get hsome).symm, hseen⟩

/-- The module at `i` of the allexe has a hidden definition of this name. -/
def Hidden (read : Bytes → Option (IRModule γ)) (exe : Allexe Bytes) (i : Nat) (name : Text)
    (g : Global γ) : Prop :=
  ∃ entry m, exe.entries[i]? = some entry ∧ read entry.contents = some m ∧
    m.symbols name = some g ∧ g.isDeclaration = false ∧ g.visibility = .hidden

/-- The program's entry point: the function `main` of the first module. -/
def IsEntryPoint (i : Nat) (name : Text) (g : Global γ) : Prop :=
  i = 0 ∧ name = mainText ∧ isFunction g = true

/-- The hidden definitions of the allexe, as the modules that are linked have them,
are private to their modules. -/
structure StaysPrivate (read : Bytes → Option (IRModule γ)) (exe : Allexe Bytes)
    (added : List (IRModule γ)) : Prop where
  internal : ∀ i name g, Hidden read exe i name g → ¬ IsEntryPoint i name g →
    ∃ m g', added[i]? = some m ∧ m.symbols name = some g' ∧ g'.linkage = .internal
  own : ∀ (binding : Binding added) i name g, Hidden read exe i name g →
    ¬ IsEntryPoint i name g → binding.target i name = some i
  others : ∀ (binding : Binding added) i j name g, Hidden read exe i name g →
    ¬ IsEntryPoint i name g → j ≠ i → binding.target j name ≠ some i
  apart : ∀ i j name g g', i ≠ j → Hidden read exe i name g → Hidden read exe j name g' →
    ∀ m m', added[i]? = some m → added[j]? = some m' →
      ¬ (m.DefinesNonLocal name ∧ m'.DefinesNonLocal name)

/-- Every hidden definition is one that the loops take, except the entry point. -/
structure Sweepable (read : Bytes → Option (IRModule γ)) (exe : Allexe Bytes) : Prop where
  ifuncs : ∀ i name g, Hidden read exe i name g → g.isIFunc = true → g.linkage = .internal
  mains : ∀ i g, Hidden read exe i mainText g → isFunction g = true → i ≠ 0 →
    g.linkage = .internal

section Merged

variable {read : Bytes → Option (IRModule γ)} {takes : List (IRModule γ) → IRModule γ → Bool}
  {exe : Allexe Bytes} {added : List (IRModule γ)}

/-- A hidden definition as the code generator gets it. -/
theorem Hidden.swept (h : addModules read takes false [] exe.entries = some added) {i : Nat}
    {name : Text} {g : Global γ} (hg : Hidden read exe i name g) :
    ∃ m, added[i]? = some m ∧
      m.symbols name = some (if isSkipped name g then g else processGlobal false g) := by
  obtain ⟨entry, m, hentry, hread, hsymbol, -, -⟩ := hg
  obtain ⟨ms, rfl, hms⟩ := addModules_eq_some h
  obtain ⟨swept, hswept, hsweep⟩ := forall₂_getElem? hms hentry
  rw [hread, Option.map_some] at hsweep
  cases hsweep
  exact ⟨_, hswept, by rw [symbols_sweep, hsymbol]; rfl⟩

/-- It is internal then, just where it is not one that the loops skip. -/
theorem Hidden.internal_iff (h : addModules read takes false [] exe.entries = some added)
    {i : Nat} {name : Text} {g : Global γ} (hg : Hidden read exe i name g) :
    (∃ m g', added[i]? = some m ∧ m.symbols name = some g' ∧ g'.linkage = .internal) ↔
      (isSkipped name g = true → g.linkage = .internal) := by
  obtain ⟨m, hm, hsymbol⟩ := hg.swept h
  obtain ⟨-, -, -, -, -, hdefined, hhidden⟩ := hg
  rw [← linkage_swept_iff hdefined hhidden]
  constructor
  · rintro ⟨m', g', hm', hg', hinternal⟩
    cases hm.symm.trans hm'
    cases hsymbol.symm.trans hg'
    exact hinternal
  · intro hinternal
    exact ⟨m, _, hm, hsymbol, hinternal⟩

theorem Sweepable.skipped (hsweepable : Sweepable read exe) {i : Nat} {name : Text}
    {g : Global γ} (hg : Hidden read exe i name g) (hentry : ¬ IsEntryPoint i name g)
    (hskipped : isSkipped name g = true) : g.linkage = .internal := by
  unfold isSkipped at hskipped
  rw [Bool.or_eq_true, Bool.and_eq_true, decide_eq_true_eq] at hskipped
  rcases hskipped with hifunc | ⟨hfunction, rfl⟩
  · exact hsweepable.ifuncs i name g hg hifunc
  · apply hsweepable.mains i g hg hfunction
    intro hi
    exact hentry ⟨hi, rfl, hfunction⟩

/-- A symbol that is internal in its module. -/
theorem not_definesNonLocal {m : IRModule γ} {name : Text} {g : Global γ}
    (hg : m.symbols name = some g) (hinternal : g.linkage = .internal) :
    ¬ m.DefinesNonLocal name := by
  rintro ⟨g', hg', -, hlocal⟩
  cases hg.symm.trans hg'
  rw [hinternal] at hlocal
  cases hlocal

/-- **Privacy**: hidden definitions stay private to their modules, just where the
loops take all of them but the entry point. -/
theorem staysPrivate_iff (h : addModules read takes false [] exe.entries = some added) :
    StaysPrivate read exe added ↔ Sweepable read exe := by
  constructor
  · intro hprivate
    constructor
    · intro i name g hg hifunc
      have hentry : ¬ IsEntryPoint i name g := by
        rintro ⟨-, -, hfunction⟩
        unfold Global.isIFunc at hifunc
        unfold isFunction at hfunction
        split at hifunc
        · next hcontent => simp [hcontent] at hfunction
        · cases hifunc
      apply (hg.internal_iff h).mp (hprivate.internal i name g hg hentry)
      rw [isSkipped, hifunc, Bool.true_or]
    · intro i g hg hfunction hi
      apply (hg.internal_iff h).mp (hprivate.internal i mainText g hg fun hentry => hi hentry.1)
      rw [isSkipped, hfunction, decide_eq_true rfl, Bool.true_and, Bool.or_true]
  · intro hsweepable
    have hinternal : ∀ i name g, Hidden read exe i name g → ¬ IsEntryPoint i name g →
        ∃ m g', added[i]? = some m ∧ m.symbols name = some g' ∧ g'.linkage = .internal :=
      fun i name g hg hentry => (hg.internal_iff h).mpr (hsweepable.skipped hg hentry)
    refine ⟨hinternal, ?_, ?_, ?_⟩
    · intro binding i name g hg hentry
      obtain ⟨m, g', hm, hg', hlinkage⟩ := hinternal i name g hg hentry
      exact binding.keepsLocal i m name g' hm hg' (by rw [hlinkage]; rfl)
    · intro binding i j name g hg hentry hne htarget
      obtain ⟨m, g', hm, hg', hlinkage⟩ := hinternal i name g hg hentry
      obtain ⟨m', hm', hexported⟩ := binding.seesExported j i name htarget (Ne.symm hne)
      cases hm.symm.trans hm'
      exact not_definesNonLocal hg' hlinkage hexported
    · rintro i j name g g' hne hg hg' m m' hm hm' ⟨hexported, hexported'⟩
      -- at most one of the two is the entry point
      by_cases hentry : IsEntryPoint i name g
      · have hother : ¬ IsEntryPoint j name g' :=
          fun hentry' => hne (hentry.1.trans hentry'.1.symm)
        obtain ⟨m₁, g₁, hm₁, hg₁, hlinkage⟩ := hinternal j name g' hg' hother
        cases hm'.symm.trans hm₁
        exact not_definesNonLocal hg₁ hlinkage hexported'
      · obtain ⟨m₁, g₁, hm₁, hg₁, hlinkage⟩ := hinternal i name g hg hentry
        cases hm.symm.trans hm₁
        exact not_definesNonLocal hg₁ hlinkage hexported

end Merged

/-! ## A program with two libraries -/

/-- A module whose only symbol is hidden. -/
def oneHidden (content : Content Unit) (name : Text) : IRModule Unit where
  symbols other := if other = name then some ⟨content, .external, .hidden⟩ else none
  finite := by
    apply (Set.finite_singleton name).subset
    intro other hother
    by_contra hne
    rw [Set.mem_singleton_iff] at hne
    simp [hne] at hother
  ctors := none
  dtors := none
  materializes := true

theorem symbols_oneHidden {content : Content Unit} {name other : Text} {g : Global Unit}
    (hg : (oneHidden content name).symbols other = some g) :
    other = name ∧ g = ⟨content, .external, .hidden⟩ := by
  change (if other = name then _ else none) = some g at hg
  split at hg
  · next hname => exact ⟨hname, (Option.some.inj hg).symm⟩
  · cases hg

def hiddenFunction : Content Unit :=
  .function voidFn [.code ()]

/-- Bitcode that is the name of the one symbol: `main` is a function. -/
def readHidden (content : Content Unit) (contents : Bytes) : Option (IRModule Unit) :=
  some (if contents = mainText then oneHidden hiddenFunction mainText
    else oneHidden content contents)

/-- A main and two libraries that have a hidden symbol of one name. -/
def twoLibraries : Allexe Bytes where
  entries := [⟨allexeMain, 0, mainText⟩, ⟨ascii "x.bc", 1, ascii "f"⟩, ⟨ascii "y.bc", 2, ascii "f"⟩]
  mainFirst := by
    rintro _ ⟨⟩
    rfl

/-- The modules that the code generator gets of it. -/
def twoSwept (content : Content Unit) : List (IRModule Unit) :=
  [sweep false (oneHidden hiddenFunction mainText), sweep false (oneHidden content (ascii "f")),
    sweep false (oneHidden content (ascii "f"))]

theorem addModules_twoLibraries (content : Content Unit) :
    addModules (readHidden content) (fun _ _ => true) false [] twoLibraries.entries =
      some (twoSwept content) :=
  rfl

theorem hidden_twoLibraries {content : Content Unit} {i : Nat} {name : Text} {g : Global Unit}
    (hg : Hidden (readHidden content) twoLibraries i name g) :
    (i = 0 ∧ name = mainText ∧ g = ⟨hiddenFunction, .external, .hidden⟩) ∨
      (i ≠ 0 ∧ name = ascii "f" ∧ g = ⟨content, .external, .hidden⟩) := by
  obtain ⟨entry, m, hentry, hread, hsymbol, -⟩ := hg
  match i with
  | 0 =>
      cases hentry
      cases hread
      obtain ⟨rfl, rfl⟩ := symbols_oneHidden hsymbol
      exact Or.inl ⟨rfl, rfl, rfl⟩
  | 1 =>
      cases hentry
      cases hread
      obtain ⟨rfl, rfl⟩ := symbols_oneHidden hsymbol
      exact Or.inr ⟨by decide, rfl, rfl⟩
  | 2 =>
      cases hentry
      cases hread
      obtain ⟨rfl, rfl⟩ := symbols_oneHidden hsymbol
      exact Or.inr ⟨by decide, rfl, rfl⟩
  | i + 3 => cases hentry

/-- With functions all is private, and the second library calls its own one. -/
theorem staysPrivate_functions :
    StaysPrivate (readHidden hiddenFunction) twoLibraries (twoSwept hiddenFunction) ∧
      (Binding.first (twoSwept hiddenFunction)).target 2 (ascii "f") = some 2 := by
  refine ⟨(staysPrivate_iff (addModules_twoLibraries hiddenFunction)).mpr ?_, rfl⟩
  constructor
  · intro i name g hg hifunc
    rcases hidden_twoLibraries hg with ⟨-, -, rfl⟩ | ⟨-, -, rfl⟩
    · cases hifunc
    · cases hifunc
  · intro i g hg _ hi
    rcases hidden_twoLibraries hg with ⟨rfl, -, -⟩ | ⟨-, hname, -⟩
    · exact absurd rfl hi
    · exact absurd hname (by decide)

/-- Indirect functions keep their linkage, and those of two libraries clash. -/
theorem hidden_ifunc_is_seen :
    addModules (readHidden (.ifunc ())) (fun _ _ => true) false [] twoLibraries.entries =
        some (twoSwept (.ifunc ())) ∧
      ¬ StaysPrivate (readHidden (.ifunc ())) twoLibraries (twoSwept (.ifunc ())) := by
  refine ⟨rfl, ?_⟩
  intro hprivate
  apply hprivate.apart 1 2 (ascii "f") ⟨.ifunc (), .external, .hidden⟩
    ⟨.ifunc (), .external, .hidden⟩ (by decide) ⟨_, _, rfl, rfl, rfl, rfl, rfl⟩
    ⟨_, _, rfl, rfl, rfl, rfl, rfl⟩ _ _ rfl rfl
  exact ⟨⟨_, rfl, rfl, rfl⟩, ⟨_, rfl, rfl, rfl⟩⟩

end Alltogether
end AllvmTools
