import AllvmTools.Tools.OutputSafety

/-!
# The output of the multiplexer

Which modules a successful run writes, and in which order.

* `newLibs_eq_firsts` — without reserved CRCs the library loop keeps the first
  library of every CRC.
* `allmux_output` — the modules of the output.
* `library_is_lost` — two libraries with one CRC.
-/

namespace AllvmTools
namespace Allmux

open Library Library.Files Library.Paths Library.Leaving Library.Leaving.Program
open Library.FirstOccurrences Archive Tools

variable {γ : Type} {bitcode : Bitcode γ}

/-! ## The library loop -/

/-- Where reserved keys are only those already there, inserting is as in a set. -/
theorem denseInsert_eq {keys : List UInt32} {key : UInt32}
    (hkey : isReserved key = true → key ∈ keys) :
    denseInsert keys key = if key ∈ keys then (false, keys) else (true, key :: keys) := by
  unfold denseInsert
  cases keys with
  | nil => simp
  | cons k rest =>
      rw [if_neg (List.cons_ne_nil k rest)]
      cases hreserved : isReserved key with
      | true => simp [hkey hreserved]
      | false => simp

theorem newLibs_eq_firsts {keys : List UInt32} {libs : List (Entry Bytes)}
    (hlibs : ∀ lib ∈ libs, isReserved lib.crc = true → lib.crc ∈ keys) :
    newLibs keys libs = firsts Entry.crc keys libs := by
  induction libs generalizing keys with
  | nil => rfl
  | cons lib rest ih =>
      have hrest : ∀ lib ∈ rest, isReserved lib.crc = true → lib.crc ∈ keys :=
        fun lib h => hlibs lib (List.mem_cons_of_mem _ h)
      rw [newLibs, firsts, denseInsert_eq (hlibs lib List.mem_cons_self)]
      by_cases hseen : lib.crc ∈ keys
      · rw [if_pos hseen, if_pos hseen]
        exact ih hrest
      · rw [if_neg hseen, if_neg hseen]
        exact congrArg (lib :: ·) (ih fun lib h hr => List.mem_cons_of_mem _ (hrest lib h hr))

/-! ## The modules of the output -/

/-- **The output of a run that succeeds**, where no library has a reserved CRC: the
generated main, the rewritten mains in the order of the inputs, and one library for
every CRC, the first one that has it, in the order of first occurrence. -/
theorem allmux_output {codec : Codec} (hcodec : codec.Lawful)
    {parse : Bytes → Option (List Dirent)} {alleyPath : Text} {env : Env} {file : Option Bytes}
    {passes : Passes γ} {t : AllmuxRun} {es : List (MuxEntry γ)} {start : ZipArchive} {out : Output}
    (hentries : readEntries bitcode [] t.inputs = some es)
    (hreserved : ∀ lib ∈ libraries es, isReserved lib.crc = false)
    (hopens : ((Tool.allmux t).toRun bitcode passes).Opens parse alleyPath file start)
    (hbody : ((Tool.allmux t).toRun bitcode passes).body ⟨start, []⟩ = (.ok (), out))
    (hcalm : ∀ i, env.fails i = false) :
    ∃ mux : MuxOutput γ, mux.Of bitcode t.noInternalize es ∧
      Archived codec (mux.modules bitcode es)
        (((Tool.allmux t).toRun bitcode passes).run codec parse alleyPath env file).2 ∧
      mux.libs.map Prod.fst = firsts Entry.crc [] (libraries es) ∧
      (∀ e ∈ es, ∀ lib ∈ e.libs, ∃ kept ∈ mux.libs, kept.1.crc = lib.crc) ∧
      (mux.libs.map fun kept => kept.1.crc).Nodup := by
  obtain ⟨es', out₁, hread, hrun⟩ := bind_eq_ok_iff.mp hbody
  obtain ⟨hes, rfl⟩ := orLeave_eq_ok hread
  rw [hentries] at hes
  cases hes
  obtain ⟨mux, hmux, hadds⟩ := ensures_allmuxBody es _ _ _ (Adds.start start) hrun
  have hlibs : mux.libs.map Prod.fst = firsts Entry.crc [] (libraries es) := by
    rw [hmux.libs, newLibs_eq_firsts]
    intro lib hlib hr
    rw [hreserved lib hlib] at hr
    cases hr
  refine ⟨mux, hmux, ?_, hlibs, ?_, ?_⟩
  · -- without failures nothing that was added is lost
    have hsaved := (Tool.savesOutput_iff hcodec hopens hbody).mpr (show
        NothingLost codec _ env file out.added by
      unfold NothingLost
      rw [if_neg (by simp [hcalm])]
      intro hflush
      rw [hcalm] at hflush
      cases hflush)
    rw [← hadds.added]
    exact hsaved (by rw [ToolRun.run_of_ok hopens hbody]; rfl)
  · intro e he lib hlib
    have hmem : lib ∈ libraries es := List.mem_flatMap.mpr ⟨e, he, hlib⟩
    -- no key has been seen before the first library
    obtain hseen | ⟨kept, hkept, hcrc⟩ := @exists_mem_firsts _ _ _ Entry.crc _ _ hmem []
    · cases hseen
    · rw [← hlibs] at hkept
      obtain ⟨pair, hpair, rfl⟩ := List.mem_map.mp hkept
      exact ⟨pair, hpair, hcrc⟩
  · have hnodup := @nodup_firsts _ _ _ Entry.crc [] (libraries es)
    rw [← hlibs, List.map_map] at hnodup
    exact hnodup

/-- Where the modules of an output come from. -/
theorem MuxOutput.Of.mem_modules {noInternalize : Bool} {es : List (MuxEntry γ)}
    {mux : MuxOutput γ} (h : mux.Of bitcode noInternalize es) {added : Archive.Module}
    (hadded : added ∈ mux.modules bitcode es) :
    added = ⟨allexeMain, mux.main.bytes⟩ ∨
      (∃ e ∈ es, ∃ m, rewriteMain noInternalize e = some m ∧ added = mainModule bitcode e m) ∨
      ∃ lib ∈ mux.libs, added = libModule bitcode lib := by
  rcases List.mem_cons.mp hadded with hmain | hrest
  · exact Or.inl hmain
  rcases List.mem_append.mp hrest with hmains | hlibs
  · right; left
    have hforall := h.mains
    generalize mux.mains = ms at hmains hforall
    clear hadded hrest h
    induction hforall with
    | nil => cases hmains
    | @cons e m rest ms hm _ ih =>
        rcases List.mem_cons.mp hmains with hfirst | hlater
        · exact ⟨e, List.mem_cons_self, m, hm, hfirst⟩
        · obtain ⟨e', he', hfound⟩ := ih hlater
          exact ⟨e', List.mem_cons_of_mem _ he', hfound⟩
  · obtain ⟨lib, hlib, heq⟩ := List.mem_map.mp hlibs
    exact Or.inr (Or.inr ⟨lib, hlib, heq.symm⟩)

/-! ## Runs that succeed -/

/-- Names under which modules can be added one after the other. -/
structure FreeNames (zip : ZipArchive) (names : List Text) : Prop where
  free : ∀ name ∈ names, zip.archive.names name = none
  nodup : names.Nodup
  plain : ∀ name ∈ names, name.all isPlainByte = true ∧ name ≠ [] ∧ name.length ≤ 0xFFFF

theorem FreeNames.of_cons {zip : ZipArchive} {name : Text} {names : List Text}
    (h : FreeNames zip (name :: names)) (leave : Leave) (entry : Buffer) (identifier : Text)
    (added : List Archive.Module) :
    ∃ out, addModule leave entry identifier name ⟨zip, added⟩ = (.ok (), out) ∧
      FreeNames out.zip names := by
  obtain ⟨hplain, hne, hshort⟩ := h.plain name List.mem_cons_self
  obtain ⟨zip', hadd, hnames⟩ :=
    addEntry_of_free hplain hne hshort (h.free name List.mem_cons_self) entry
  refine ⟨⟨zip', added ++ [⟨name, entry.bytes⟩]⟩, ?_, ?_⟩
  · unfold addModule addEntry
    simp only [if_neg hne, hadd]
  · constructor
    · intro other hother
      have hdistinct : other ≠ name := by
        rintro rfl
        exact (List.nodup_cons.mp h.nodup).1 hother
      show zip'.archive.names other = none
      rw [hnames, Function.update_of_ne hdistinct]
      exact h.free other (List.mem_cons_of_mem _ hother)
    · exact (List.nodup_cons.mp h.nodup).2
    · exact fun other hother => h.plain other (List.mem_cons_of_mem _ hother)

theorem addMains_succeeds {noInternalize : Bool} {es : List (MuxEntry γ)} {names : List Text}
    (hes : ∀ e ∈ es, ∃ m, rewriteMain noInternalize e = some m) {out : Output}
    (hfree : FreeNames out.zip (es.map MuxEntry.outputName ++ names)) :
    ∃ out', addMains bitcode noInternalize es out = (.ok (), out') ∧
      FreeNames out'.zip names := by
  induction es generalizing out with
  | nil => exact ⟨out, rfl, hfree⟩
  | cons e rest ih =>
      obtain ⟨m, hm⟩ := hes e List.mem_cons_self
      obtain ⟨out₁, hadd, hfree₁⟩ :=
        hfree.of_cons .exits (bitcode.write m) allexeMain out.added
      obtain ⟨out', hrun, hfree'⟩ :=
        ih (fun e h => hes e (List.mem_cons_of_mem _ h)) hfree₁
      refine ⟨out', ?_, hfree'⟩
      rw [addMains, hm, bind_of_ok (show exitOnErr (some m) out = (.ok m, out) from rfl),
        bind_of_ok hadd, hrun]

theorem addLibs_succeeds {libs : List (Entry Bytes)}
    (hlibs : ∀ lib ∈ libs, ∃ m, rewriteLib bitcode lib = some m) {out : Output}
    (hfree : FreeNames out.zip (libs.map Entry.name)) :
    ∃ out', addLibs bitcode libs out = (.ok (), out') := by
  induction libs generalizing out with
  | nil => exact ⟨out, rfl⟩
  | cons lib rest ih =>
      obtain ⟨m, hm⟩ := hlibs lib List.mem_cons_self
      obtain ⟨out₁, hadd, hfree₁⟩ :=
        hfree.of_cons .exits (bitcode.write m) lib.name out.added
      obtain ⟨out', hrun⟩ := ih (fun lib h => hlibs lib (List.mem_cons_of_mem _ h)) hfree₁
      refine ⟨out', ?_⟩
      rw [addLibs, hm, bind_of_ok (show exitOnErr (some m) out = (.ok m, out) from rfl),
        bind_of_ok hadd, hrun]

/-- The names of the modules of an output. -/
def outputNames (es : List (MuxEntry γ)) : List Text :=
  allexeMain :: (es.map MuxEntry.outputName ++ (newLibs [] (libraries es)).map Entry.name)

/-- The scope succeeds where every module can be generated and the names of the
modules are printable and distinct. -/
theorem allmuxBody_succeeds {noInternalize : Bool} {es : List (MuxEntry γ)} {cases : List Case}
    {main : Buffer} (hcases : genMain es = some cases) (hmain : bitcode.muxMain cases = some main)
    (hes : ∀ e ∈ es, ∃ m, rewriteMain noInternalize e = some m)
    (hlibs : ∀ lib ∈ newLibs [] (libraries es), ∃ m, rewriteLib bitcode lib = some m)
    {start : ZipArchive} (hfree : FreeNames start (outputNames es)) :
    ∃ out, allmuxBody bitcode noInternalize es ⟨start, []⟩ = (.ok (), out) := by
  obtain ⟨out₁, hadd, hfree₁⟩ := hfree.of_cons .exits main allexeMain []
  obtain ⟨out₂, hrun, hfree₂⟩ := addMains_succeeds hes hfree₁
  obtain ⟨out, hrun'⟩ := addLibs_succeeds hlibs hfree₂
  refine ⟨out, ?_⟩
  unfold allmuxBody
  rw [hcases, bind_of_ok (show exitOnErr (some cases) ⟨start, []⟩ = (.ok cases, _) from rfl),
    hmain, bind_of_ok (show exitOnErr (some main) ⟨start, []⟩ = (.ok main, _) from rfl),
    bind_of_ok hadd, bind_of_ok hrun, hrun']

/-! ## Two small programs -/

/-- A module that defines one function. -/
def oneFunction (name : Text) : IRModule Unit where
  symbols other :=
    if other = name then some ⟨.function voidFn [.code ()], .external, .defaultVisibility⟩
    else none
  finite := by
    apply (Set.finite_singleton name).subset
    intro other hother
    by_contra hne
    rw [Set.mem_singleton_iff] at hne
    simp [hne] at hother
  ctors := none
  dtors := none
  materializes := true

/-- Bitcode that is the name of the one function; the written form says which of
`f` and `g` there are. -/
def nameBitcode : Bitcode Unit where
  read contents := some (oneFunction contents)
  write m :=
    ⟨Archive.bitcode ++
      [if (m.symbols (ascii "f")).isSome then 1 else 0,
        if (m.symbols (ascii "g")).isSome then 1 else 0], 0, 0⟩
  muxMain _ := some ⟨Archive.bitcode, 0, 0⟩

/-- A program with one library. -/
def program (base : Text) (hbase : base.length < 4096) (lib : Entry Bytes)
    (hlib : lib.name.length ≤ 0xFFFF) : MuxEntry Unit where
  path := ⟨base, hbase⟩
  allexe := ⟨[⟨allexeMain, 0, mainText⟩, lib], by rintro _ ⟨⟩; rfl⟩
  main := oneFunction mainText
  names := by
    intro e he
    rcases List.mem_cons.mp he with rfl | he
    · exact show allexeMain.length ≤ 0xFFFF by decide
    · rw [List.mem_singleton.mp he]
      exact hlib

/-- The input it is read from. -/
def MuxEntry.input (e : MuxEntry γ) : Input where
  path := e.path
  allexe := some e.allexe
  names := by
    rintro _ ⟨⟩
    exact e.names

theorem short_a : (ascii "a").length < 4096 := by
  decide

theorem short_b : (ascii "b").length < 4096 := by
  decide

/-- `a` with a library `x.bc` that defines `f`, and `b` with `y.bc` that defines `g`. -/
def bothPrograms (crc crc' : UInt32) : List (MuxEntry Unit) :=
  [program (ascii "a") short_a ⟨ascii "x.bc", crc, ascii "f"⟩
      (show (ascii "x.bc").length ≤ 0xFFFF by decide),
    program (ascii "b") short_b ⟨ascii "y.bc", crc', ascii "g"⟩
      (show (ascii "y.bc").length ≤ 0xFFFF by decide)]

/-- Multiplexing both. -/
def bothRun (crc crc' : UInt32) : AllmuxRun :=
  ⟨(bothPrograms crc crc').map MuxEntry.input, false, false⟩

/-- The archive they are added to. -/
def newOutput : ZipArchive :=
  .fresh false (ascii "/usr/bin/alley")

theorem freeNames_bothPrograms (crc crc' : UInt32) :
    FreeNames newOutput (outputNames (bothPrograms crc crc')) := by
  have hlibs : ((newLibs [] (libraries (bothPrograms crc crc'))).map Entry.name).Sublist
      [ascii "x.bc", ascii "y.bc"] := (newLibs_sublist [] _).map Entry.name
  have hnames : (outputNames (bothPrograms crc crc')).Sublist
      [allexeMain, ascii "main_a.bc", ascii "main_b.bc", ascii "x.bc", ascii "y.bc"] :=
    ((hlibs.cons_cons _).cons_cons _).cons_cons _
  have hplain : ∀ name ∈ [allexeMain, ascii "main_a.bc", ascii "main_b.bc", ascii "x.bc",
      ascii "y.bc"], name.all isPlainByte = true ∧ name ≠ [] ∧ name.length ≤ 0xFFFF := by
    decide
  constructor
  · exact fun _ _ => rfl
  · exact List.Nodup.sublist hnames (by decide)
  · exact fun name h => hplain name (hnames.subset h)

theorem bothRun_succeeds (crc crc' : UInt32) (parse : Bytes → Option (List Dirent)) :
    readEntries nameBitcode [] (bothRun crc crc').inputs = some (bothPrograms crc crc') ∧
      ((Tool.allmux (bothRun crc crc')).toRun nameBitcode noPasses).Opens parse
        (ascii "/usr/bin/alley") none newOutput ∧
      ∃ out, ((Tool.allmux (bothRun crc crc')).toRun nameBitcode noPasses).body
        ⟨newOutput, []⟩ = (.ok (), out) := by
  have hread : readEntries nameBitcode [] (bothRun crc crc').inputs =
      some (bothPrograms crc crc') := rfl
  refine ⟨hread, ⟨rfl, openAllexe_fresh parse _ (Or.inr (Or.inl rfl))⟩, ?_⟩
  obtain ⟨out, hrun⟩ := @allmuxBody_succeeds _ nameBitcode false (bothPrograms crc crc') _ _ rfl rfl
    (by
      intro e he
      rcases List.mem_cons.mp he with rfl | he
      · exact ⟨_, rfl⟩
      · exact List.mem_singleton.mp he ▸ ⟨_, rfl⟩)
    (by
      intro lib hlib
      have hmem : lib ∈ [⟨ascii "x.bc", crc, ascii "f"⟩, ⟨ascii "y.bc", crc', ascii "g"⟩] :=
        (newLibs_sublist [] _).subset hlib
      rcases List.mem_cons.mp hmem with rfl | hmem
      · exact ⟨_, rfl⟩
      · rw [List.mem_singleton.mp hmem]
        exact ⟨_, rfl⟩) _ (freeNames_bothPrograms crc crc')
  refine ⟨out, ?_⟩
  show (exitOnErr (readEntries nameBitcode [] (bothRun crc crc').inputs) >>=
    allmuxBody nameBitcode false) ⟨newOutput, []⟩ = _
  rw [hread, bind_of_ok (show exitOnErr (some (bothPrograms crc crc')) ⟨newOutput, []⟩ =
    (.ok (bothPrograms crc crc'), _) from rfl), hrun]

/-- The output of that run. -/
theorem exists_of_bothPrograms (crc crc' : UInt32) :
    ∃ mux : MuxOutput Unit, mux.Of nameBitcode false (bothPrograms crc crc') := by
  obtain ⟨hread, -, out, hbody⟩ := bothRun_succeeds crc crc' fun _ => none
  obtain ⟨es, out₁, hfound, hrun⟩ := bind_eq_ok_iff.mp hbody
  obtain ⟨hes, rfl⟩ := orLeave_eq_ok hfound
  cases hread.symm.trans hes
  obtain ⟨mux, hmux, -⟩ := ensures_allmuxBody _ _ _ _ (Adds.start newOutput) hrun
  exact ⟨mux, hmux⟩

theorem allmux_output_bothPrograms :
    ∃ mux : MuxOutput Unit, mux.Of nameBitcode false (bothPrograms 1 2) ∧
      Archived storingCodec (mux.modules nameBitcode (bothPrograms 1 2))
        (((Tool.allmux (bothRun 1 2)).toRun nameBitcode noPasses).run storingCodec
          (fun _ => none) (ascii "/usr/bin/alley") .calm none).2 ∧
      mux.libs.map Prod.fst = firsts Entry.crc [] (libraries (bothPrograms 1 2)) := by
  obtain ⟨hread, hopens, out, hbody⟩ := bothRun_succeeds 1 2 fun _ => none
  obtain ⟨mux, hmux, harchived, hlibs, -⟩ := allmux_output storingCodec_lawful hread
    (show ∀ lib ∈ libraries (bothPrograms 1 2), isReserved lib.crc = false by decide) hopens
    hbody (fun _ => rfl : ∀ i, Env.calm.fails i = false)
  exact ⟨mux, hmux, harchived, hlibs⟩

/-- Two libraries with one CRC and different contents: the second one is in no
module of the output of a run that succeeds. -/
theorem library_is_lost :
    ∃ (out : Output) (m : IRModule Unit),
      readEntries nameBitcode [] (bothRun 1 1).inputs = some (bothPrograms 1 1) ∧
      ((Tool.allmux (bothRun 1 1)).toRun nameBitcode noPasses).Opens (fun _ => none)
        (ascii "/usr/bin/alley") none newOutput ∧
      ((Tool.allmux (bothRun 1 1)).toRun nameBitcode noPasses).body ⟨newOutput, []⟩ =
        (.ok (), out) ∧
      rewriteLib nameBitcode ⟨ascii "y.bc", 1, ascii "g"⟩ = some m ∧
      ∀ added ∈ out.added, added.bytes ≠ (nameBitcode.write m).bytes := by
  obtain ⟨hread, hopens, out, hbody⟩ := bothRun_succeeds 1 1 fun _ => none
  refine ⟨out, _, hread, hopens, hbody, rfl, ?_⟩
  obtain ⟨es, out₁, hfound, hrun⟩ := bind_eq_ok_iff.mp hbody
  obtain ⟨hes, rfl⟩ := orLeave_eq_ok hfound
  cases hread.symm.trans hes
  obtain ⟨mux, hmux, hadds⟩ := ensures_allmuxBody _ _ _ _ (Adds.start newOutput) hrun
  have hmain : mux.main.bytes = Archive.bitcode :=
    congrArg Buffer.bytes (Option.some.inj hmux.main).symm
  have hlibs : mux.libs.map Prod.fst = [⟨ascii "x.bc", 1, ascii "f"⟩] := hmux.libs
  -- the module with `g` is none of them
  have hbytes : ∀ e ∈ bothPrograms 1 1, ∀ m, rewriteMain false e = some m →
      (nameBitcode.write m).bytes = Archive.bitcode ++ [0, 0] := by
    intro e he m hm
    rcases List.mem_cons.mp he with rfl | he
    · rw [← Option.some.inj hm]
      rfl
    · rw [List.mem_singleton.mp he] at hm
      rw [← Option.some.inj hm]
      rfl
  intro added hadded
  rw [hadds.added] at hadded
  show added.bytes ≠ Archive.bitcode ++ [0, 1]
  obtain rfl | ⟨e, he, m, hm, rfl⟩ | ⟨lib, hlib, rfl⟩ := hmux.mem_modules hadded
  · rw [hmain]
    decide
  · show (nameBitcode.write m).bytes ≠ _
    rw [hbytes e he m hm]
    decide
  · have hkept := hmux.rewritten lib hlib
    have hfirst : lib.1 = ⟨ascii "x.bc", 1, ascii "f"⟩ := by
      have hmem := @List.mem_map_of_mem _ _ _ _ Prod.fst hlib
      rw [hlibs] at hmem
      exact List.mem_singleton.mp hmem
    rw [hfirst] at hkept
    show (nameBitcode.write lib.2).bytes ≠ _
    rw [← Option.some.inj hkept]
    decide

end Allmux
end AllvmTools
