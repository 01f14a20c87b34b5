import AllvmTools.Allmux.Entries
import AllvmTools.Allmux.Output

/-!
# What a rewritten main exports

The symbol table of a main module after the renaming and the two passes that make
its definitions internal.

* `symbols_renameMain` — the table, name by name.
* `symbols_rewriteMain_of_notMem` — making the two functions changes no other name.
* `isolated_iff` — the mains of an output share no name, just where no indirect
  function is exported and the new name of the main is free.
* `ifunc_is_exported` — two programs with an indirect function of one name.
-/

namespace AllvmTools
namespace Allmux

open Library Library.Files Library.Paths Library.Leaving Library.Leaving.Program Archive Tools

variable {γ : Type} {bitcode : Bitcode γ} {noInternalize : Bool}

/-! ## The two passes -/

namespace Global

def isIFunc (g : Global γ) : Bool :=
  match g.content with
  | .ifunc _ => true
  | _ => false

@[simp] theorem isDeclaration_setLinkage (g : Global γ) (linkage : Linkage) :
    (g.setLinkage linkage).isDeclaration = g.isDeclaration :=
  rfl

@[simp] theorem linkage_setLinkage (g : Global γ) (linkage : Linkage) :
    (g.setLinkage linkage).linkage = linkage :=
  rfl

end Global

/-- The passes leave the linkage of this symbol. -/
def keepsLinkage (name : Text) (g : Global γ) : Bool :=
  alwaysPreserved.contains name || g.isDeclaration || g.isIFunc

theorem internalize_of_ne {mainName name : Text} (hname : name ≠ mainName) (g : Global γ) :
    internalize mainName name g =
      if keepsLinkage name g = true then g else g.setLinkage .internal := by
  unfold internalize
  rw [if_neg hname]
  split
  · next resolver hcontent => simp [keepsLinkage, Global.isIFunc, hcontent]
  · next hcontent =>
      have hplain : g.isIFunc = false := by
        unfold Global.isIFunc
        split
        · next resolver h => exact absurd h (hcontent resolver)
        · rfl
      unfold processGlobal keepsLinkage
      by_cases hpreserved : name ∈ alwaysPreserved
      · simp [hpreserved]
      · simp [hpreserved, hplain]

/-- The name that the main function gets. -/
def MuxEntry.newMainName (e : MuxEntry γ) : Text :=
  (e.main.rename mainText e.mainName).1

theorem symbols_renameMain (e : MuxEntry γ) (name : Text) :
    (renameMain noInternalize e.main e.mainName).symbols name =
      if name = e.newMainName then (e.main.symbols mainText).map exportMain
      else if name = mainText then none
      else (e.main.symbols name).map fun g =>
        if noInternalize = true ∨ keepsLinkage name g = true then g
        else g.setLinkage .internal := by
  unfold renameMain MuxEntry.newMainName
  cases noInternalize with
  | true =>
      simp only [if_true, IRModule.symbols_mapSymbols, IRModule.symbols_rename, true_or]
      split
      · rfl
      · split
        · rfl
        · exact congrArg (Option.map · (e.main.symbols name)) (funext fun g => rfl)
  | false =>
      simp only [Bool.false_eq_true, if_false, IRModule.symbols_mapSymbols,
        IRModule.symbols_rename, Option.map_map, false_or]
      split
      · -- the renamed main is what the passes must export
        next hnew =>
          apply congrArg (Option.map · (e.main.symbols mainText))
          funext g
          show internalize _ name (exportMain g) = exportMain g
          unfold internalize
          rw [if_pos hnew]
      · next hnew =>
          split
          · rfl
          · apply congrArg (Option.map · (e.main.symbols name))
            funext g
            exact internalize_of_ne hnew g

/-! ## The new name of the main function -/

theorem mainName_ne_mainText (e : MuxEntry γ) : e.mainName ≠ mainText := by
  intro h
  have hlength := congrArg List.length h
  have hmain : (ascii "main_").length = 5 := by decide
  have htext : mainText.length = 4 := by decide
  simp only [MuxEntry.mainName, List.length_append] at hlength
  omega

/-- The name is new in the module without its main function. -/
theorem symbols_newMainName (e : MuxEntry γ) (hmain : e.newMainName ≠ mainText) :
    e.main.symbols e.newMainName = none := by
  have hfree : (e.main.setSymbol mainText none).symbols e.newMainName = none :=
    (e.main.setSymbol mainText none).symbols_freeName e.mainName
  rwa [IRModule.symbols_setSymbol_of_ne _ _ hmain] at hfree

/-- A name that is taken gets a number behind it. -/
theorem mainName_prefix_newMainName (e : MuxEntry γ) : e.mainName <+: e.newMainName := by
  unfold MuxEntry.newMainName IRModule.rename IRModule.freeName
  dsimp only
  split
  · exact List.prefix_rfl
  · unfold IRModule.numbered
    rw [List.append_assoc]
    exact List.prefix_append _ _

theorem exists_newMainName (e : MuxEntry γ) :
    ∃ rest, e.newMainName = ascii "main_" ++ rest := by
  obtain ⟨suffix, hsuffix⟩ := mainName_prefix_newMainName e
  exact ⟨e.base ++ suffix, by rw [← hsuffix, MuxEntry.mainName, List.append_assoc]⟩

theorem newMainName_ne_mainText (e : MuxEntry γ) : e.newMainName ≠ mainText := by
  obtain ⟨rest, hname⟩ := exists_newMainName e
  rw [hname]
  intro h
  have hlength := congrArg List.length h
  have hmain : (ascii "main_").length = 5 := by decide
  have htext : mainText.length = 4 := by decide
  simp only [List.length_append] at hlength
  omega

/-- It is the intended one where that is free. -/
theorem newMainName_eq_iff (e : MuxEntry γ) :
    e.newMainName = e.mainName ↔ e.main.symbols e.mainName = none := by
  constructor
  · intro h
    rw [← h]
    exact symbols_newMainName e (newMainName_ne_mainText e)
  · intro hfree
    unfold MuxEntry.newMainName IRModule.rename IRModule.freeName
    dsimp only
    rw [if_pos]
    rw [IRModule.symbols_setSymbol_of_ne _ _ (mainName_ne_mainText e), hfree]
    rfl

/-- No name that starts like a main is one of the constructor and destructor
functions, or preserved. -/
theorem eq_mainName_of_mem {e : MuxEntry γ} {rest : Text}
    (h : ascii "main_" ++ rest ∈ e.ownNames ∨ ascii "main_" ++ rest ∈ alwaysPreserved) :
    ascii "main_" ++ rest = e.mainName := by
  rcases h with hown | hpreserved
  · obtain ⟨start, hstart, heq⟩ := mem_ownNames_iff.mp hown
    rw [(eq_of_starts List.mem_cons_self hstart heq).2]
    rfl
  · have hother : ∀ p ∈ alwaysPreserved, p.head? ≠ (ascii "main_").head? := by decide
    exact absurd (List.head?_append_of_ne_nil _ (by decide)).symm (hother _ hpreserved).symm

/-! ## Making the two functions -/

theorem symbols_createCtorDtorFunc_of_ne {fns : List CtorFn} {m m' : IRModule γ}
    {made name : Text} (h : m.createCtorDtorFunc fns made = some m') (hname : name ≠ made) :
    m'.symbols name = m.symbols name := by
  obtain ⟨g, rfl, -, -⟩ := IRModule.symbols_createCtorDtorFunc h
  exact IRModule.symbols_setSymbol_of_ne _ _ hname

theorem symbols_replaceCtors_of_ne {m m' : IRModule γ} {made name : Text}
    (h : m.replaceCtors made = some m') (hname : name ≠ made) :
    m'.symbols name = m.symbols name := by
  unfold IRModule.replaceCtors at h
  split at h
  · cases h
  · exact symbols_createCtorDtorFunc_of_ne h hname
  · split at h
    · cases h
    · rw [symbols_createCtorDtorFunc_of_ne h hname]

theorem symbols_replaceDtors_of_ne {m m' : IRModule γ} {made name : Text}
    (h : m.replaceDtors made = some m') (hname : name ≠ made) :
    m'.symbols name = m.symbols name := by
  unfold IRModule.replaceDtors at h
  split at h
  · cases h
  · exact symbols_createCtorDtorFunc_of_ne h hname
  · split at h
    · cases h
    · rw [symbols_createCtorDtorFunc_of_ne h hname]

/-- What a main is rewritten through. -/
theorem rewriteMain_eq_some {e : MuxEntry γ} {m : IRModule γ}
    (h : rewriteMain noInternalize e = some m) :
    (∃ type, e.main.getFunction mainText = some type) ∧
      ∃ m₁, (renameMain noInternalize e.main e.mainName).replaceCtors e.getCtorsName = some m₁ ∧
        m₁.replaceDtors e.getDtorsName = some m := by
  unfold rewriteMain at h
  split at h
  · cases h
  split at h
  · cases h
  next hmain =>
  rw [Bool.not_eq_true, Option.isNone_eq_false_iff] at hmain
  split at h
  · cases h
  next m₁ hctors => exact ⟨Option.isSome_iff_exists.mp hmain, m₁, hctors, h⟩

theorem symbols_rewriteMain_of_notMem {e : MuxEntry γ} {m : IRModule γ}
    (h : rewriteMain noInternalize e = some m) {name : Text}
    (hname : name ∉ [e.getCtorsName, e.getDtorsName]) :
    m.symbols name = (renameMain noInternalize e.main e.mainName).symbols name := by
  obtain ⟨-, m₁, hctors, hdtors⟩ := rewriteMain_eq_some h
  simp only [List.mem_cons, List.not_mem_nil, or_false, not_or] at hname
  rw [symbols_replaceDtors_of_ne hdtors hname.2, symbols_replaceCtors_of_ne hctors hname.1]

/-! ## Isolation -/

/-- The module has a definition of this name that others can see. -/
def IRModule.DefinesNonLocal (m : IRModule γ) (name : Text) : Prop :=
  ∃ g, m.symbols name = some g ∧ g.isDeclaration = false ∧ g.linkage.isLocal = false

/-- The mains let others see nothing but their own functions and preserved names,
and no two of them anything but preserved names. -/
structure Isolated (es : List (MuxEntry γ)) (mains : List (IRModule γ)) : Prop where
  own : ∀ (j : Nat) (e : MuxEntry γ) (m : IRModule γ), es[j]? = some e → mains[j]? = some m →
    ∀ name, m.DefinesNonLocal name → name ∈ e.ownNames ∨ name ∈ alwaysPreserved
  apart : ∀ (j j' : Nat) (m m' : IRModule γ), mains[j]? = some m → mains[j']? = some m' → j ≠ j' →
    ∀ name, m.DefinesNonLocal name → m'.DefinesNonLocal name → name ∈ alwaysPreserved

/-- A main that can be isolated: the new name of its main function is free, and
others see none of its indirect functions. -/
structure MuxEntry.Isolable (e : MuxEntry γ) : Prop where
  mainFree : ∀ g, e.main.symbols mainText = some g → g.isDeclaration = false →
    e.main.symbols e.mainName = none
  ifuncs : ∀ (name : Text) (g : Global γ), e.main.symbols name = some g → g.isIFunc = true →
    g.linkage.isLocal = false → name ∈ e.ownNames ∨ name ∈ alwaysPreserved

/-- What others see of a rewritten main, apart from the two functions. -/
theorem definesNonLocal_rewriteMain {e : MuxEntry γ} {m : IRModule γ}
    (h : rewriteMain false e = some m) {name : Text}
    (hname : name ∉ [e.getCtorsName, e.getDtorsName]) :
    m.DefinesNonLocal name ↔
      (name = e.newMainName ∧ ∃ g, e.main.symbols mainText = some g ∧ g.isDeclaration = false) ∨
      (name ≠ mainText ∧ ∃ g, e.main.symbols name = some g ∧ g.isDeclaration = false ∧
        g.linkage.isLocal = false ∧ (name ∈ alwaysPreserved ∨ g.isIFunc = true)) := by
  unfold IRModule.DefinesNonLocal
  rw [symbols_rewriteMain_of_notMem h hname, symbols_renameMain]
  by_cases hnew : name = e.newMainName
  · subst hnew
    have hfree := symbols_newMainName e (newMainName_ne_mainText e)
    rw [if_pos rfl, hfree]
    constructor
    · rintro ⟨g, hg, hdefined, -⟩
      obtain ⟨g', hg', rfl⟩ := Option.map_eq_some_iff.mp hg
      exact Or.inl ⟨rfl, g', hg', hdefined⟩
    · rintro (⟨-, g, hg, hdefined⟩ | ⟨-, g, hg, -⟩)
      · exact ⟨exportMain g, by rw [hg, Option.map_some], hdefined, rfl⟩
      · cases hg
  · rw [if_neg hnew]
    by_cases htext : name = mainText
    · rw [if_pos htext]
      constructor
      · rintro ⟨g, hg, -⟩
        cases hg
      · rintro (⟨h, -⟩ | ⟨h, -⟩)
        · exact absurd h hnew
        · exact absurd htext h
    · rw [if_neg htext]
      constructor
      · rintro ⟨g, hg, hdefined, hlocal⟩
        obtain ⟨g', hg', rfl⟩ := Option.map_eq_some_iff.mp hg
        right
        refine ⟨htext, g', hg', ?_⟩
        by_cases hkeeps : keepsLinkage name g' = true
        · rw [if_pos (Or.inr hkeeps)] at hdefined hlocal
          refine ⟨hdefined, hlocal, ?_⟩
          simpa [keepsLinkage, hdefined] using hkeeps
        · -- an internal symbol is local
          rw [if_neg (by simpa using hkeeps)] at hlocal
          cases hlocal
      · rintro (⟨h, -⟩ | ⟨-, g, hg, hdefined, hlocal, hkept⟩)
        · exact absurd h hnew
        · have hkeeps : keepsLinkage name g = true := by
            simpa [keepsLinkage, hdefined] using hkept
          refine ⟨g, ?_, hdefined, hlocal⟩
          rw [hg, Option.map_some, if_pos (Or.inr hkeeps)]

/-- One main: it shows only what it should, just where it can be isolated. -/
theorem own_iff_isolable {e : MuxEntry γ} {m : IRModule γ} (h : rewriteMain false e = some m) :
    (∀ name, m.DefinesNonLocal name → name ∈ e.ownNames ∨ name ∈ alwaysPreserved) ↔
      e.Isolable := by
  have hmade : ∀ {name}, name ∈ [e.getCtorsName, e.getDtorsName] → name ∈ e.ownNames :=
    fun hname => List.mem_cons_of_mem _ hname
  constructor
  · intro hown
    constructor
    · intro g hg hdefined
      obtain ⟨rest, hrest⟩ := exists_newMainName e
      by_cases hname : e.newMainName ∈ [e.getCtorsName, e.getDtorsName]
      · rw [← newMainName_eq_iff, hrest]
        exact eq_mainName_of_mem (Or.inl (hrest ▸ hmade hname))
      · have hseen := hown e.newMainName
          ((definesNonLocal_rewriteMain h hname).mpr (Or.inl ⟨rfl, g, hg, hdefined⟩))
        rw [← newMainName_eq_iff, hrest]
        exact eq_mainName_of_mem (hrest ▸ hseen)
    · intro name g hg hifunc hlocal
      by_cases hname : name ∈ [e.getCtorsName, e.getDtorsName]
      · exact Or.inl (hmade hname)
      · apply hown name
        rw [definesNonLocal_rewriteMain h hname]
        right
        have hdefined : g.isDeclaration = false := by
          unfold Global.isIFunc at hifunc
          unfold Global.isDeclaration
          split at hifunc
          · next hcontent => rw [hcontent]
          · cases hifunc
        refine ⟨?_, g, hg, hdefined, hlocal, Or.inr hifunc⟩
        -- the main function is a function
        rintro rfl
        obtain ⟨⟨type, hmain⟩, -⟩ := rewriteMain_eq_some h
        unfold Global.isIFunc at hifunc
        unfold IRModule.getFunction at hmain
        rw [hg] at hmain
        split at hifunc
        · next hcontent => simp [hcontent] at hmain
        · cases hifunc
  · intro hisolable name hdefines
    by_cases hname : name ∈ [e.getCtorsName, e.getDtorsName]
    · exact Or.inl (hmade hname)
    · rcases (definesNonLocal_rewriteMain h hname).mp hdefines with
        ⟨rfl, g, hg, hdefined⟩ | ⟨-, g, hg, -, hlocal, hpreserved | hifunc⟩
      · rw [(newMainName_eq_iff e).mpr (hisolable.mainFree g hg hdefined)]
        exact Or.inl List.mem_cons_self
      · exact Or.inr hpreserved
      · exact hisolable.ifuncs name g hg hifunc hlocal

/-- **Isolation**: the mains of an output keep to themselves just where each can be
isolated. -/
theorem isolated_iff {inputs : List Input} {es : List (MuxEntry γ)} {mux : MuxOutput γ}
    (hentries : readEntries bitcode [] inputs = some es) (hmux : mux.Of bitcode false es) :
    Isolated es mux.mains ↔ ∀ e ∈ es, e.Isolable := by
  constructor
  · intro hisolated e he
    obtain ⟨j, hj⟩ := List.mem_iff_getElem?.mp he
    obtain ⟨m, hm, hrewrite⟩ := forall₂_getElem? hmux.mains hj
    exact (own_iff_isolable hrewrite).mp (hisolated.own j e m hj hm)
  · intro hisolable
    have hown : ∀ (j : Nat) (m : IRModule γ), mux.mains[j]? = some m → ∃ e, es[j]? = some e ∧
        ∀ name, m.DefinesNonLocal name → name ∈ e.ownNames ∨ name ∈ alwaysPreserved := by
      intro j m hm
      obtain ⟨e, hj, hrewrite⟩ := forall₂_getElem? hmux.mains.flip hm
      exact ⟨e, hj, (own_iff_isolable hrewrite).mpr (hisolable e (List.mem_of_getElem? hj))⟩
    constructor
    · intro j e m hj hm
      obtain ⟨e', hj', hseen⟩ := hown j m hm
      cases hj.symm.trans hj'
      exact hseen
    · intro j j' m m' hm hm' hne name hdefines hdefines'
      obtain ⟨e, hj, hseen⟩ := hown j m hm
      obtain ⟨e', hj', hseen'⟩ := hown j' m' hm'
      by_contra hpreserved
      -- the base names of two entries differ
      apply hne
      apply index_eq_of_base (nodup_bases hentries).1 hj hj'
      exact base_eq_of_mem_ownNames ((hseen name hdefines).resolve_right hpreserved)
        ((hseen' name hdefines').resolve_right hpreserved)

theorem isolated_bothPrograms :
    ∃ mux : MuxOutput Unit, mux.Of nameBitcode false (bothPrograms 1 2) ∧
      Isolated (bothPrograms 1 2) mux.mains := by
  obtain ⟨hread, -⟩ := bothRun_succeeds 1 2 fun _ => none
  obtain ⟨mux, hmux⟩ := exists_of_bothPrograms 1 2
  refine ⟨mux, hmux, (isolated_iff hread hmux).mpr ?_⟩
  intro e he
  have hmain : e.main = oneFunction mainText := by
    rcases List.mem_cons.mp he with rfl | he
    · rfl
    · rw [List.mem_singleton.mp he]
      rfl
  constructor
  · intro g _ _
    rw [hmain]
    simp [oneFunction, mainName_ne_mainText e]
  · intro name g hg hifunc
    rw [hmain] at hg
    change (if name = mainText then _ else none) = some g at hg
    split at hg
    · cases hg
      cases hifunc
    · cases hg

/-! ## Two programs with an indirect function -/

/-- A module with a main and an indirect function `f`. -/
def withIFunc : IRModule Unit where
  symbols name :=
    if name = mainText then some ⟨.function voidFn [.code ()], .external, .defaultVisibility⟩
    else if name = ascii "f" then some ⟨.ifunc (), .external, .defaultVisibility⟩
    else none
  finite := by
    apply (Set.toFinite {mainText, ascii "f"}).subset
    intro name hname
    by_contra hother
    simp only [Set.mem_insert_iff, Set.mem_singleton_iff, not_or] at hother
    simp [hother.1, hother.2] at hname
  ctors := none
  dtors := none
  materializes := true

def ifuncBitcode : Bitcode Unit where
  read _ := some withIFunc
  write _ := ⟨Archive.bitcode, 0, 0⟩
  muxMain _ := some ⟨Archive.bitcode, 0, 0⟩

/-- A program whose main module is this one. -/
def ifuncProgram (base : Text) (hbase : base.length < 4096) : MuxEntry Unit where
  path := ⟨base, hbase⟩
  allexe := ⟨[⟨allexeMain, 0, []⟩], by rintro _ ⟨⟩; rfl⟩
  main := withIFunc
  names := by
    intro e he
    rw [List.mem_singleton.mp he]
    exact show allexeMain.length ≤ 0xFFFF by decide

def ifuncPrograms : List (MuxEntry Unit) :=
  [ifuncProgram (ascii "a") short_a, ifuncProgram (ascii "b") short_b]

/-- Both rewritten mains define `f` for others to see. -/
theorem ifunc_is_exported :
    ∃ mux : MuxOutput Unit,
      readEntries ifuncBitcode [] (ifuncPrograms.map MuxEntry.input) = some ifuncPrograms ∧
      mux.Of ifuncBitcode false ifuncPrograms ∧ ¬ Isolated ifuncPrograms mux.mains := by
  refine ⟨⟨_, _, [_, _], []⟩, rfl,
    ⟨rfl, rfl, .cons rfl (.cons rfl .nil), rfl, fun lib h => absurd h List.not_mem_nil⟩, ?_⟩
  intro hisolated
  have hpreserved := hisolated.apart 0 1 _ _ rfl rfl (by decide) (ascii "f")
    ⟨_, rfl, rfl, rfl⟩ ⟨_, rfl, rfl, rfl⟩
  revert hpreserved
  decide

end Allmux
end AllvmTools
