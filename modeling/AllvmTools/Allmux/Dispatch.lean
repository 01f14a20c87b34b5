import AllvmTools.Allmux.Isolation
import AllvmTools.Allmux.Select

/-!
# Runs of a multiplexed program

What a run of the generated main does, in terms of the entries it was made of.

* `muxMain_of_lastPart`, `muxMain_of_noLastPart` — the run of an entry, by name.
* `dispatched_iff` — which main is called, with which arguments and what for, just
  where the main functions get the names they are called by.
* `calls_other_main` — a program that has a function of such a name.
* `inOrder_iff` — the order of constructor and destructor functions.
* `ctors_run_twice` — an entry with one library under two paths.
-/

namespace AllvmTools
namespace Allmux

open Library Library.CString Library.Files Library.Paths Library.Leaving
open Library.Leaving.Program Archive Tools

variable {γ V : Type} {bitcode : Bitcode γ}

/-! ## The case of an entry -/

theorem dispatch_of_mem (env : Callees V) (args : List V) {cases : List Case}
    (hnodup : (cases.map Case.base).Nodup) {c : Case} (hc : c ∈ cases) :
    dispatch env c.base args cases = c.run env args := by
  induction cases with
  | nil => cases hc
  | cons c' rest ih =>
      rw [List.map_cons, List.nodup_cons] at hnodup
      rw [dispatch]
      rcases List.mem_cons.mp hc with rfl | hc
      · rw [if_pos rfl]
      · have hne : c.base ≠ c'.base :=
          fun h => hnodup.1 (h ▸ List.mem_map_of_mem hc)
        rw [if_neg hne]
        exact ih hnodup.2 hc

theorem dispatch_of_ne (env : Callees V) (args : List V) {cases : List Case} {name : Text}
    (hne : ∀ c ∈ cases, name ≠ c.base) :
    dispatch env name args cases = ⟨[], none, .returned (-1), []⟩ := by
  induction cases with
  | nil => rfl
  | cons c rest ih =>
      rw [dispatch, if_neg (hne c List.mem_cons_self)]
      exact ih fun c h => hne c (List.mem_cons_of_mem _ h)

theorem map_base_genMain {es : List (MuxEntry γ)} {cases : List Case}
    (h : genMain es = some cases) : cases.map Case.base = es.map MuxEntry.base := by
  have hcases := forall₂_genMain h
  clear h
  induction hcases with
  | nil => rfl
  | cons hcase _ ih =>
      obtain ⟨type, -, -, -, rfl⟩ := genCase_eq_some hcase
      rw [List.map_cons, List.map_cons, ih]

theorem mem_filename {c : UInt8} {path : Text} (h : c ∈ filename path) : c ∈ path ∨ c = dot := by
  unfold filename at h
  split at h
  · exact Or.inr (List.mem_singleton.mp h)
  · exact Or.inl (List.mem_of_mem_drop h)

section Entries

variable {inputs : List Input} {es : List (MuxEntry γ)} {cases : List Case}
  (hentries : readEntries bitcode [] inputs = some es) (hcases : genMain es = some cases)
  (hpaths : ∀ e ∈ es, (0 : UInt8) ∉ e.path.text) (env : Callees V) {argv0 : CString}
  (args : List V)

include hpaths in
theorem plain_base {e : MuxEntry γ} (he : e ∈ es) : (0 : UInt8) ∉ e.base := by
  intro hmem
  rcases mem_filename hmem with hpath | hdot
  · exact hpaths e he hpath
  · exact absurd hdot (by decide)

include hcases hpaths in
theorem plain_case : ∀ c ∈ cases, (0 : UInt8) ∉ c.base := by
  intro c hc
  have hbase : c.base ∈ es.map MuxEntry.base := by
    rw [← map_base_genMain hcases]
    exact List.mem_map_of_mem hc
  obtain ⟨e, he, heq⟩ := List.mem_map.mp hbase
  rw [← heq]
  exact plain_base hpaths he

include hentries hcases hpaths in
/-- A program whose name ends in the base name of an entry runs its case. -/
theorem muxMain_of_lastPart {e : MuxEntry γ} (he : e ∈ es)
    (hpart : IsLastPart slash argv0.text e.base) :
    ∃ c, genCase e = some c ∧ muxMain env cases argv0 args = some (c.run env args) := by
  obtain ⟨j, hj⟩ := List.mem_iff_getElem?.mp he
  obtain ⟨c, hc, hcase⟩ := forall₂_getElem? (forall₂_genMain hcases) hj
  refine ⟨c, hcase, ?_⟩
  have hbase : c.base = e.base := by
    obtain ⟨type, -, -, -, rfl⟩ := genCase_eq_some hcase
    rfl
  have hname : basename argv0.text = c.base := by
    rw [hbase]
    exact afterLast_eq_iff.mpr hpart
  have hnodup : (cases.map Case.base).Nodup := by
    rw [map_base_genMain hcases]
    exact (nodup_bases hentries).1
  rw [muxMain_eq env (plain_case hcases hpaths), hname,
    dispatch_of_mem env args hnodup (List.mem_of_getElem? hc)]

include hcases hpaths in
/-- Any other program calls nothing. -/
theorem muxMain_of_noLastPart (hpart : ∀ e ∈ es, ¬ IsLastPart slash argv0.text e.base) :
    muxMain env cases argv0 args = some ⟨[], none, .returned (-1), []⟩ := by
  rw [muxMain_eq env (plain_case hcases hpaths), dispatch_of_ne]
  intro c hc hname
  have hbase : c.base ∈ es.map MuxEntry.base := by
    rw [← map_base_genMain hcases]
    exact List.mem_map_of_mem hc
  obtain ⟨e, he, heq⟩ := List.mem_map.mp hbase
  apply hpart e he
  apply afterLast_eq_iff.mp
  rw [heq]
  exact hname

end Entries

/-! ## Dispatch -/

/-- The run calls a main by the name generated for this entry. -/
def Run.CallsMain (run : Run V) (e : MuxEntry γ) : Prop :=
  ∃ args, run.main = some (e.mainName, args)

/-- The run calls the main function of this entry, by the name that the function got. -/
def Run.CallsRealMain (run : Run V) (e : MuxEntry γ) : Prop :=
  ∃ args, run.main = some (e.newMainName, args)

/-- A run is dispatched exactly: the main function that is called is that of the entry
whose base name the last part of the program's name is, with the arguments that it takes;
its result is returned; and without such an entry nothing is called. -/
structure Dispatched (env : Callees V) (es : List (MuxEntry γ)) (argv0 : CString)
    (args : List V) (run : Run V) : Prop where
  exact : ∀ e ∈ es, run.CallsRealMain e ↔ IsLastPart slash argv0.text e.base
  one : ∀ e ∈ es, ∀ e' ∈ es, run.CallsRealMain e → run.CallsRealMain e' → e = e'
  passed : ∀ e ∈ es, IsLastPart slash argv0.text e.base →
    ∃ type, e.main.getFunction mainText = some type ∧ type.params <+: selectParams ∧
      run.main = some (e.newMainName, args.take type.params.length) ∧
      run.status = (env.main e.newMainName (args.take type.params.length)).orZero
        (decide (type.result = .void))
  nothing : (∀ e ∈ es, ¬ IsLastPart slash argv0.text e.base) →
    run = ⟨[], none, .returned (-1), []⟩

/-- The name that `setName` is to give each main function is free, but for an entry
that no program can be called like. -/
def MainsFree (es : List (MuxEntry γ)) : Prop :=
  ∀ e ∈ es, slash ∉ e.base → e.main.symbols e.mainName = none

theorem newMainName_eq {es : List (MuxEntry γ)} (hfree : MainsFree es) {e : MuxEntry γ}
    (he : e ∈ es) (hslash : slash ∉ e.base) : e.newMainName = e.mainName :=
  (newMainName_eq_iff e).mpr (hfree e he hslash)

/-- With these free, the name that an entry's program calls is that of no other entry's
main function. -/
theorem base_eq_of_newMainName {es : List (MuxEntry γ)} (hfree : MainsFree es)
    {e e' : MuxEntry γ} (he' : e' ∈ es) (hslash : slash ∉ e.base)
    (h : e.mainName = e'.newMainName) : e.base = e'.base := by
  have hslash' : slash ∉ e'.base := by
    intro hmem
    have hnew : slash ∈ e.mainName := by
      rw [h]
      exact (mainName_prefix_newMainName e').subset (List.mem_append_right _ hmem)
    rcases List.mem_append.mp hnew with hmain | hbase
    · revert hmain
      decide
    · exact hslash hbase
  rw [newMainName_eq hfree he' hslash'] at h
  exact List.append_cancel_left h

section Dispatch

variable {inputs : List Input} {es : List (MuxEntry γ)} {cases : List Case}
  (hentries : readEntries bitcode [] inputs = some es) (hcases : genMain es = some cases)
  (hpaths : ∀ e ∈ es, (0 : UInt8) ∉ e.path.text) (env : Callees V) {argv0 : CString}
  (args : List V)

include hentries in
theorem eq_of_base {e e' : MuxEntry γ} (he : e ∈ es) (he' : e' ∈ es)
    (hbase : e.base = e'.base) : e = e' :=
  List.inj_on_of_nodup_map (nodup_bases hentries).1 he he' hbase

include hentries hcases hpaths in
/-- The main that the program of an entry calls, with what it gets and returns. -/
theorem run_of_lastPart {e : MuxEntry γ} (he : e ∈ es)
    (hlast : IsLastPart slash argv0.text e.base) :
    ∃ run type, muxMain env cases argv0 args = some run ∧
      e.main.getFunction mainText = some type ∧ type.params <+: selectParams ∧
      run.main = some (e.mainName, args.take type.params.length) ∧
      run.status = (env.main e.mainName (args.take type.params.length)).orZero
        (decide (type.result = .void)) := by
  obtain ⟨c, hcase, hrun⟩ := muxMain_of_lastPart hentries hcases hpaths env args he hlast
  obtain ⟨type, hmain, hparams, -, rfl⟩ := genCase_eq_some hcase
  exact ⟨_, type, hrun, hmain, hparams, rfl, rfl⟩

include hentries hcases hpaths in
theorem dispatched_of_lastPart (hfree : MainsFree es) {e : MuxEntry γ} (he : e ∈ es)
    (hlast : IsLastPart slash argv0.text e.base) :
    ∃ run, muxMain env cases argv0 args = some run ∧ Dispatched env es argv0 args run := by
  obtain ⟨run, type, hrun, hmain, hparams, hcalled, hstatus⟩ :=
    run_of_lastPart hentries hcases hpaths env args he hlast
  have hname := newMainName_eq hfree he hlast.1
  have honly : ∀ e' ∈ es, run.CallsRealMain e' → e = e' := by
    rintro e' he' ⟨args', hcalled'⟩
    have hnames : e.mainName = e'.newMainName :=
      congrArg Prod.fst (Option.some.inj (hcalled.symm.trans hcalled'))
    exact eq_of_base hentries he he' (base_eq_of_newMainName hfree he' hlast.1 hnames)
  -- the last part of a name is one
  have hlasts : ∀ e' ∈ es, IsLastPart slash argv0.text e'.base → e = e' := by
    intro e' he' hlast'
    apply eq_of_base hentries he he'
    exact (afterLast_eq_iff.mpr hlast).symm.trans (afterLast_eq_iff.mpr hlast')
  refine ⟨run, hrun, ?_, ?_, ?_, fun hnone => absurd hlast (hnone e he)⟩
  · intro e' he'
    constructor
    · intro hcalls
      rw [← honly e' he' hcalls]
      exact hlast
    · intro hlast'
      rw [← hlasts e' he' hlast']
      exact ⟨_, hname ▸ hcalled⟩
  · intro e₁ h₁ e₂ h₂ hcalls₁ hcalls₂
    exact (honly e₁ h₁ hcalls₁).symm.trans (honly e₂ h₂ hcalls₂)
  · intro e' he' hlast'
    rw [← hlasts e' he' hlast', hname]
    exact ⟨type, hmain, hparams, hcalled, hstatus⟩

include hcases hpaths in
theorem dispatched_of_noLastPart (hnone : ∀ e ∈ es, ¬ IsLastPart slash argv0.text e.base) :
    ∃ run, muxMain env cases argv0 args = some run ∧ Dispatched env es argv0 args run := by
  have hcalls : ∀ e : MuxEntry γ,
      ¬ (⟨[], none, .returned (-1), []⟩ : Run V).CallsRealMain e := by
    rintro e ⟨args', hcalled⟩
    cases hcalled
  refine ⟨_, muxMain_of_noLastPart hcases hpaths env args hnone, ?_, ?_, ?_, fun _ => rfl⟩
  · exact fun e he => iff_of_false (hcalls e) (hnone e he)
  · exact fun e _ e' _ h => absurd h (hcalls e)
  · exact fun e he hlast => absurd hlast (hnone e he)

end Dispatch

/-- **Dispatch** is exact, whatever the program is called, just where the main functions
get the names that they are called by. -/
theorem dispatched_iff {inputs : List Input} {es : List (MuxEntry γ)} {cases : List Case}
    (hentries : readEntries bitcode [] inputs = some es) (hcases : genMain es = some cases)
    (hpaths : ∀ e ∈ es, (0 : UInt8) ∉ e.path.text) (env : Callees V) (argc argv envp : V) :
    (∀ argv0 : CString, ∃ run, muxMain env cases argv0 [argc, argv, envp] = some run ∧
      Dispatched env es argv0 [argc, argv, envp] run) ↔ MainsFree es := by
  constructor
  · intro hall e he hslash
    -- the program that is called like the entry
    let argv0 : CString := ⟨e.base, plain_base hpaths he⟩
    have hlast : IsLastPart slash argv0.text e.base := ⟨hslash, Or.inl rfl⟩
    obtain ⟨run, hrun, hdispatched⟩ := hall argv0
    obtain ⟨run', type, hrun', -, -, hcalled', -⟩ :=
      run_of_lastPart hentries hcases hpaths env [argc, argv, envp] he hlast
    obtain ⟨args, hcalled⟩ := (hdispatched.exact e he).mpr hlast
    cases hrun.symm.trans hrun'
    apply (newMainName_eq_iff e).mp
    exact congrArg Prod.fst (Option.some.inj (hcalled.symm.trans hcalled'))
  · intro hfree argv0
    by_cases hpart : ∃ e ∈ es, IsLastPart slash argv0.text e.base
    · obtain ⟨e, he, hlast⟩ := hpart
      exact dispatched_of_lastPart hentries hcases hpaths env _ hfree he hlast
    · simp only [not_exists, not_and] at hpart
      exact dispatched_of_noLastPart hcases hpaths env _ hpart

/-- Called functions that return at once. -/
def quiet : Callees Nat where
  registers _ _ := []
  accepts _ _ := true
  main _ _ := .returned 7

theorem mainsFree_bothPrograms : MainsFree (bothPrograms 1 2) := by
  intro e he _
  have hmain : e.main = oneFunction mainText := by
    rcases List.mem_cons.mp he with rfl | he
    · rfl
    · rw [List.mem_singleton.mp he]
      rfl
  rw [hmain]
  simp [oneFunction, mainName_ne_mainText e]

theorem dispatched_bothPrograms :
    ∃ cases run, genMain (bothPrograms 1 2) = some cases ∧
      muxMain quiet cases ⟨ascii "/usr/bin/b", by decide⟩ [1, 2, 3] = some run ∧
      run.main = some (ascii "main_b", []) ∧ run.status = .returned 0 := by
  obtain ⟨hread, -⟩ := bothRun_succeeds 1 2 fun _ => none
  have hpaths : ∀ e ∈ bothPrograms 1 2, (0 : UInt8) ∉ e.path.text := by decide
  obtain ⟨run, hrun, hdispatched⟩ :=
    (dispatched_iff hread rfl hpaths quiet 1 2 3).mpr mainsFree_bothPrograms
      ⟨ascii "/usr/bin/b", by decide⟩
  refine ⟨_, run, rfl, hrun, ?_⟩
  obtain ⟨type, htype, -, hmain, hstatus⟩ := hdispatched.passed _
    (List.mem_cons_of_mem _ List.mem_cons_self)
    ⟨by decide, Or.inr ⟨ascii "/usr/bin", by decide⟩⟩
  cases htype
  exact ⟨hmain, hstatus⟩

/-! ## A program with a function `main_a` -/

/-- A module that defines `main` and `main_a`. -/
def bothMains : IRModule Unit where
  symbols name :=
    if name = mainText ∨ name = ascii "main_a" then
      some ⟨.function voidFn [.code ()], .external, .defaultVisibility⟩
    else none
  finite := by
    apply (Set.toFinite {mainText, ascii "main_a"}).subset
    intro name hname
    by_contra hother
    simp only [Set.mem_insert_iff, Set.mem_singleton_iff] at hother
    simp [hother] at hname
  ctors := none
  dtors := none
  materializes := true

def bothMainsBitcode : Bitcode Unit where
  read _ := some bothMains
  write _ := ⟨Archive.bitcode, 0, 0⟩
  muxMain _ := some ⟨Archive.bitcode, 0, 0⟩

/-- The program `a` with this module. -/
def bothMainsProgram : MuxEntry Unit :=
  { ifuncProgram (ascii "a") short_a with main := bothMains }

/-- A run of it calls `main_a`, whereas its main function is `main_a.1`. -/
theorem calls_other_main :
    ∃ (cases : List Case) (run : Run Nat),
      readEntries bothMainsBitcode [] [bothMainsProgram.input] = some [bothMainsProgram] ∧
      genMain [bothMainsProgram] = some cases ∧
      muxMain quiet cases ⟨ascii "a", by decide⟩ [1, 2, 3] = some run ∧
      run.main = some (ascii "main_a", []) ∧
      bothMainsProgram.newMainName ≠ ascii "main_a" ∧
      IsLastPart slash (ascii "a") bothMainsProgram.base ∧
      ¬ run.CallsRealMain bothMainsProgram ∧
      ¬ Dispatched quiet [bothMainsProgram] ⟨ascii "a", by decide⟩ [1, 2, 3] run := by
  have htaken : bothMainsProgram.newMainName ≠ ascii "main_a" := by
    intro h
    have hfree := (newMainName_eq_iff bothMainsProgram).mp h
    revert hfree
    decide
  have hlast : IsLastPart slash (ascii "a") bothMainsProgram.base := ⟨by decide, Or.inl rfl⟩
  have hother : ∀ run : Run Nat, run.main = some (ascii "main_a", []) →
      ¬ run.CallsRealMain bothMainsProgram := by
    rintro run hmain ⟨args, hcalled⟩
    exact htaken (congrArg Prod.fst (Option.some.inj (hcalled.symm.trans hmain)))
  refine ⟨_, _, rfl, rfl, rfl, rfl, htaken, hlast, hother _ rfl, ?_⟩
  intro hdispatched
  exact hother _ rfl ((hdispatched.exact _ List.mem_cons_self).mpr hlast)

/-! ## Steps -/

/-- The constructor function that a step calls. -/
def MuxCall.ctor? : MuxCall → Option Text
  | callCtor name => some name
  | registerDtor _ => none

/-- The destructor function that a step registers. -/
def MuxCall.dtor? : MuxCall → Option Text
  | callCtor _ => none
  | registerDtor name => some name

def Handler.dtor? : Handler → Option Text
  | dtor name => some name
  | other _ => none

theorem calls_steps (env : Callees V) (p : Process) (steps : List MuxCall) :
    (env.steps p steps).calls = p.calls ++ steps.filterMap MuxCall.ctor? := by
  induction steps generalizing p with
  | nil => simp [Callees.steps]
  | cons step steps ih =>
      rw [Callees.steps, List.foldl_cons]
      show (env.steps _ steps).calls = _
      rw [ih]
      cases step with
      | callCtor name =>
          rw [@List.filterMap_cons_some _ _ MuxCall.ctor? (.callCtor name) _ _ rfl]
          simp [Callees.step]
      | registerDtor name =>
          rw [List.filterMap_cons_none rfl]
          unfold Callees.step
          dsimp only
          split
          · rfl
          · rfl

/-- Handlers that a function registers itself are no destructor functions. -/
theorem dtors_pushed (env : Callees V) (name : Text) (handlers : List Handler) :
    (env.pushed name handlers).filterMap Handler.dtor? = handlers.filterMap Handler.dtor? := by
  have hothers : ∀ ids : List Nat, (ids.map Handler.other).filterMap Handler.dtor? = [] := by
    intro ids
    induction ids with
    | nil => rfl
    | cons id ids ih => rw [List.map_cons, List.filterMap_cons_none rfl, ih]
  rw [Callees.pushed, List.filterMap_append, hothers, List.nil_append]

/-- Where all registrations succeed, the destructor functions are stacked in the
order of the steps. -/
theorem dtors_steps {env : Callees V}
    (haccepts : ∀ name handlers, env.accepts name handlers = true) (p : Process)
    (steps : List MuxCall) :
    (env.steps p steps).handlers.filterMap Handler.dtor? =
      (steps.filterMap MuxCall.dtor?).reverse ++ p.handlers.filterMap Handler.dtor? := by
  induction steps generalizing p with
  | nil => simp [Callees.steps]
  | cons step steps ih =>
      rw [Callees.steps, List.foldl_cons]
      show (env.steps _ steps).handlers.filterMap _ = _
      rw [ih]
      cases step with
      | callCtor name =>
          rw [@List.filterMap_cons_none _ _ MuxCall.dtor? (.callCtor name) _ rfl]
          exact congrArg _ (dtors_pushed env name p.handlers)
      | registerDtor name =>
          rw [@List.filterMap_cons_some _ _ MuxCall.dtor? (.registerDtor name) _ _ rfl]
          simp [Callees.step, haccepts, Handler.dtor?]

theorem ctors_libSteps (libs : List (Entry Bytes)) :
    (libs.flatMap libSteps).filterMap MuxCall.ctor? = libs.map getLibCtorsName := by
  induction libs with
  | nil => rfl
  | cons lib libs ih =>
      rw [List.flatMap_cons, List.filterMap_append, ih]
      rfl

theorem dtors_libSteps (libs : List (Entry Bytes)) :
    (libs.flatMap libSteps).filterMap MuxCall.dtor? = libs.map getLibDtorsName := by
  induction libs with
  | nil => rfl
  | cons lib libs ih =>
      rw [List.flatMap_cons, List.filterMap_append, ih]
      rfl

/-! ## The order of constructors and destructors -/

/-- The constructor and destructor functions of an entry and its libraries. -/
def MuxEntry.initFunctions (e : MuxEntry γ) : List Text :=
  [e.getCtorsName, e.getDtorsName] ++ e.libs.flatMap initNames

/-- The destructor functions of a run, in the order they are called. -/
def Run.dtors (run : Run V) : List Text :=
  run.atExit.filterMap Handler.dtor?

/-- The run initializes and finalizes this entry in order: constructor functions
from the last library down to the first and then the entry's, before its main;
destructor functions the other way round at the end; each once, and none of others. -/
structure InOrder (es : List (MuxEntry γ)) (e : MuxEntry γ) (run : Run V) : Prop where
  ctors : run.calls = e.libs.reverse.map getLibCtorsName ++ [e.getCtorsName]
  ctorsOnce : run.calls.Nodup
  main : run.CallsMain e
  dtors : run.dtors = e.getDtorsName :: e.libs.map getLibDtorsName
  dtorsOnce : run.dtors.Nodup
  others : ∀ e' ∈ es, ∀ name ∈ e'.initFunctions, name ∉ e.initFunctions →
    name ∉ run.calls ∧ name ∉ run.dtors

theorem nodup_ctors_iff (e : MuxEntry γ) :
    (e.libs.reverse.map getLibCtorsName ++ [e.getCtorsName]).Nodup ↔
      (e.base :: e.libs.map getModName).Nodup := by
  have hmap : e.libs.reverse.map getLibCtorsName ++ [e.getCtorsName] =
      ((e.base :: e.libs.map getModName).map (ascii "ctors_" ++ ·)).reverse := by
    rw [List.map_cons, List.reverse_cons, List.map_map, List.map_reverse]
    rfl
  rw [hmap, List.nodup_reverse, List.nodup_map_iff (List.append_right_injective _)]

theorem nodup_dtors_iff (e : MuxEntry γ) :
    (e.getDtorsName :: e.libs.map getLibDtorsName).Nodup ↔
      (e.base :: e.libs.map getModName).Nodup := by
  have hmap : e.getDtorsName :: e.libs.map getLibDtorsName =
      (e.base :: e.libs.map getModName).map (ascii "dtors_" ++ ·) := by
    rw [List.map_cons, List.map_map]
    rfl
  rw [hmap, List.nodup_map_iff (List.append_right_injective _)]

/-- What a run of the case of an entry calls and registers. -/
theorem run_genCase {e : MuxEntry γ} {c : Case} (hcase : genCase e = some c) {env : Callees V}
    (haccepts : ∀ name handlers, env.accepts name handlers = true) (args : List V) :
    (c.run env args).calls = e.libs.reverse.map getLibCtorsName ++ [e.getCtorsName] ∧
      (c.run env args).CallsMain e ∧
      (c.run env args).dtors = e.getDtorsName :: e.libs.map getLibDtorsName := by
  obtain ⟨type, -, -, -, rfl⟩ := genCase_eq_some hcase
  refine ⟨?_, ⟨_, rfl⟩, ?_⟩
  · show (env.steps ⟨[], []⟩ _).calls = _
    rw [calls_steps, List.filterMap_append, ctors_libSteps]
    rfl
  · show (env.pushed _ (env.steps ⟨[], []⟩ _).handlers).filterMap _ = _
    rw [dtors_pushed, dtors_steps haccepts, List.filterMap_append, dtors_libSteps]
    -- the stack turns the order of registration around
    rw [List.map_reverse, List.reverse_append, List.reverse_reverse, List.append_assoc,
      List.filterMap_nil, List.append_nil]
    rfl

/-- **Order**: a run dispatched to an entry initializes and finalizes it in order,
just where its libraries have distinct module names, other than its base name. -/
theorem inOrder_iff {inputs : List Input} {es : List (MuxEntry γ)} {cases : List Case}
    (hentries : readEntries bitcode [] inputs = some es) (hcases : genMain es = some cases)
    (hpaths : ∀ e ∈ es, (0 : UInt8) ∉ e.path.text) {env : Callees V}
    (haccepts : ∀ name handlers, env.accepts name handlers = true) {argv0 : CString}
    (args : List V) {e : MuxEntry γ} (he : e ∈ es)
    (hpart : IsLastPart slash argv0.text e.base) :
    ∃ run, muxMain env cases argv0 args = some run ∧
      (InOrder es e run ↔ (e.base :: e.libs.map getModName).Nodup) := by
  obtain ⟨c, hcase, hrun⟩ := muxMain_of_lastPart hentries hcases hpaths env args he hpart
  obtain ⟨hcalls, hmain, hdtors⟩ := run_genCase hcase haccepts args
  refine ⟨_, hrun, ?_⟩
  constructor
  · intro horder
    rw [← nodup_ctors_iff, ← hcalls]
    exact horder.ctorsOnce
  · intro hnodup
    refine ⟨hcalls, ?_, hmain, hdtors, ?_, ?_⟩
    · rw [hcalls]
      exact (nodup_ctors_iff e).mpr hnodup
    · rw [hdtors]
      exact (nodup_dtors_iff e).mpr hnodup
    · -- every function called belongs to the entry
      intro e' _ name _ hother
      have hlibs : ∀ lib ∈ e.libs, ∀ name ∈ initNames lib, name ∈ e.initFunctions :=
        fun lib hlib name hname =>
          List.mem_append_right _ (List.mem_flatMap.mpr ⟨lib, hlib, hname⟩)
      rw [hcalls, hdtors]
      constructor
      · intro hmem
        apply hother
        rcases List.mem_append.mp hmem with hmem | hown
        · obtain ⟨lib, hlib, rfl⟩ := List.mem_map.mp hmem
          exact hlibs lib (List.mem_reverse.mp hlib) _ List.mem_cons_self
        · rw [List.mem_singleton.mp hown]
          exact List.mem_cons_self
      · intro hmem
        apply hother
        rcases List.mem_cons.mp hmem with rfl | hmem
        · exact List.mem_cons_of_mem _ List.mem_cons_self
        · obtain ⟨lib, hlib, rfl⟩ := List.mem_map.mp hmem
          exact hlibs lib hlib _ (List.mem_cons_of_mem _ List.mem_cons_self)

theorem inOrder_bothPrograms :
    ∃ cases run, genMain (bothPrograms 1 2) = some cases ∧
      muxMain quiet cases ⟨ascii "/usr/bin/b", by decide⟩ [1, 2, 3] = some run ∧
      ∃ e ∈ bothPrograms 1 2, InOrder (bothPrograms 1 2) e run := by
  obtain ⟨hread, -⟩ := bothRun_succeeds 1 2 fun _ => none
  have hlast : program (ascii "b") (by decide) ⟨ascii "y.bc", 2, ascii "g"⟩
      (show (ascii "y.bc").length ≤ 0xFFFF by decide) ∈ bothPrograms 1 2 :=
    List.mem_cons_of_mem _ List.mem_cons_self
  obtain ⟨run, hrun, horder⟩ := inOrder_iff hread rfl
    (show ∀ e ∈ bothPrograms 1 2, (0 : UInt8) ∉ e.path.text by decide)
    (show ∀ name handlers, quiet.accepts name handlers = true from fun _ _ => rfl)
    [1, 2, 3] hlast (show IsLastPart slash (CString.mk (ascii "/usr/bin/b") (by decide)).text _ from
      ⟨by decide, Or.inr ⟨ascii "/usr/bin", by decide⟩⟩)
  exact ⟨_, run, rfl, hrun, _, hlast, horder.mpr (by decide)⟩

/-! ## One library under two paths -/

/-- A program that has the same library in two directories. -/
def twiceLinked : MuxEntry Unit where
  path := ⟨ascii "a", short_a⟩
  allexe := ⟨[⟨allexeMain, 0, mainText⟩, ⟨ascii "p/x.bc", 1, ascii "f"⟩,
    ⟨ascii "q/x.bc", 1, ascii "f"⟩], by rintro _ ⟨⟩; rfl⟩
  main := oneFunction mainText
  names := by
    have hnames : ∀ name ∈ [allexeMain, ascii "p/x.bc", ascii "q/x.bc"],
        name.length ≤ 0xFFFF := by
      decide
    intro e he
    exact hnames e.name (List.mem_map_of_mem he)

/-- Its output has the library once, and a run calls the constructor function of that
twice. -/
theorem ctors_run_twice :
    ∃ (mux : MuxOutput Unit) (run : Run Nat),
      readEntries nameBitcode [] [twiceLinked.input] = some [twiceLinked] ∧
      mux.Of nameBitcode false [twiceLinked] ∧
      muxMain quiet mux.cases ⟨ascii "a", by decide⟩ [1, 2, 3] = some run ∧
      run.calls = [ascii "ctors_1-x.bc", ascii "ctors_1-x.bc", ascii "ctors_a"] ∧
      ¬ InOrder [twiceLinked] twiceLinked run := by
  have hcalls : ∀ run : Run Nat,
      run.calls = [ascii "ctors_1-x.bc", ascii "ctors_1-x.bc", ascii "ctors_a"] →
      ¬ InOrder [twiceLinked] twiceLinked run := by
    intro run hcalls horder
    have honce := horder.ctorsOnce
    rw [hcalls] at honce
    revert honce
    decide
  obtain ⟨m, hm⟩ : ∃ m, rewriteMain false twiceLinked = some m := ⟨_, rfl⟩
  obtain ⟨lib, hlib⟩ : ∃ lib, rewriteLib nameBitcode ⟨ascii "p/x.bc", 1, ascii "f"⟩ = some lib :=
    ⟨_, rfl⟩
  refine ⟨⟨_, ⟨Archive.bitcode, 0, 0⟩, [m], [(⟨ascii "p/x.bc", 1, ascii "f"⟩, lib)]⟩, _, rfl,
    ⟨rfl, rfl, .cons hm .nil, rfl, ?_⟩, rfl, rfl, hcalls _ rfl⟩
  intro added hadded
  rw [List.mem_singleton.mp hadded]
  exact hlib

end Allmux
end AllvmTools
