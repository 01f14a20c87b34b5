import AllvmTools.Allmux.Isolation

/-!
# References of the generated main

The generated main refers to functions by names that it makes of its entries; the
modules that come with it make functions of such names in another loop.  Whether
every reference finds its function is decided by the inputs.

* `exports_rewriteMain`, `exports_rewriteLib` — what the modules of an output
  export, in terms of their inputs.
* `resolves_iff` — every reference is resolved by the one intended module, just
  where the inputs are `Resolvable`.
* `resolvable_iff_of_plain` — the condition where no input has a symbol of a
  generated name.
* `reference_dangles` — one library under two file names.
-/

namespace AllvmTools
namespace Allmux

open Library Library.Files Library.Paths Library.Leaving Library.Leaving.Program
open Library.FirstOccurrences Archive Tools

variable {γ : Type} {bitcode : Bitcode γ} {noInternalize : Bool}

/-! ## What the modules export -/

/-- The main module of this entry will export the name. -/
def MuxEntry.Provides (noInternalize : Bool) (e : MuxEntry γ) (name : Text) : Prop :=
  if name = e.newMainName then ∃ g ∈ e.main.symbols mainText, g.isDeclaration = false
  else if name = mainText then False
  else
    match e.main.symbols name with
    | none => name ∈ [e.getCtorsName, e.getDtorsName]
    | some g =>
        g.isExternal = true ∧ (noInternalize = true ∨ keepsLinkage name g = true) ∧
          (name ∈ [e.getCtorsName, e.getDtorsName] ∨ g.isDeclaration = false)

/-- The copy of this library will export the name. -/
def LibProvides (bitcode : Bitcode γ) (lib : Entry Bytes) (name : Text) : Prop :=
  ∃ m, bitcode.read lib.contents = some m ∧ m.ExportsWith (initNames lib) name

theorem newMainName_notMem (e : MuxEntry γ) :
    e.newMainName ∉ [e.getCtorsName, e.getDtorsName] := by
  obtain ⟨rest, hname⟩ := exists_newMainName e
  rw [hname]
  intro hmem
  rcases List.mem_cons.mp hmem with h | h
  · exact absurd h
      (Text.append_ne_append_of_head (by decide) (by decide) (by decide) rest e.base)
  · exact absurd (List.mem_singleton.mp h)
      (Text.append_ne_append_of_head (by decide) (by decide) (by decide) rest e.base)

theorem mainText_notMem (e : MuxEntry γ) : mainText ∉ [e.getCtorsName, e.getDtorsName] := by
  have hmain : mainText = mainText ++ [] := (List.append_nil _).symm
  rw [hmain]
  intro hmem
  rcases List.mem_cons.mp hmem with h | h
  · exact absurd h
      (Text.append_ne_append_of_head (by decide) (by decide) (by decide) [] e.base)
  · exact absurd (List.mem_singleton.mp h)
      (Text.append_ne_append_of_head (by decide) (by decide) (by decide) [] e.base)

theorem exports_rewriteMain {e : MuxEntry γ} {m : IRModule γ}
    (h : rewriteMain noInternalize e = some m) (name : Text) :
    m.Exports name ↔ e.Provides noInternalize name := by
  obtain ⟨-, m₁, hctors, hdtors⟩ := rewriteMain_eq_some h
  rw [IRModule.exports_replaceCtorsDtors hctors hdtors]
  unfold IRModule.ExportsWith MuxEntry.Provides
  rw [symbols_renameMain]
  by_cases hnew : name = e.newMainName
  · rw [if_pos hnew, if_pos hnew]
    have hmade : name ∉ [e.getCtorsName, e.getDtorsName] := hnew ▸ newMainName_notMem e
    cases hmain : e.main.symbols mainText with
    | none => simp [hmade]
    | some g =>
        have hdeclaration : (exportMain g).isDeclaration = g.isDeclaration := rfl
        have hexternal : (exportMain g).isExternal = true := rfl
        simp [hmade, hdeclaration, hexternal]
  · rw [if_neg hnew, if_neg hnew]
    by_cases htext : name = mainText
    · rw [if_pos htext, if_pos htext, htext]
      simp [mainText_notMem e]
    · rw [if_neg htext, if_neg htext]
      cases hsymbol : e.main.symbols name with
      | none => rfl
      | some g =>
          by_cases hkeeps : noInternalize = true ∨ keepsLinkage name g = true
          · simp [hkeeps]
          · -- what was made internal is not exported
            simp [hkeeps, Global.isExternal]

theorem exports_rewriteLib {lib : Entry Bytes} {m : IRModule γ}
    (h : rewriteLib bitcode lib = some m) (name : Text) :
    m.Exports name ↔ LibProvides bitcode lib name := by
  unfold rewriteLib at h
  split at h
  · cases h
  next m₀ hread =>
  split at h
  · cases h
  split at h
  · cases h
  next m₁ hctors =>
  rw [IRModule.exports_replaceCtorsDtors hctors h]
  constructor
  · exact fun hexports => ⟨m₀, hread, hexports⟩
  · rintro ⟨m', hread', hexports⟩
    cases hread.symm.trans hread'
    exact hexports

/-! ## Resolution -/

/-- Of the modules just the one at this position exports the name. -/
def ResolvesTo (modules : List (IRModule γ)) (name : Text) (position : Nat) : Prop :=
  position < modules.length ∧
    ∀ (q : Nat) (m : IRModule γ), modules[q]? = some m → (m.Exports name ↔ q = position)

theorem resolvesTo_left {xs ys : List (IRModule γ)} {name : Text} {j : Nat} (hj : j < xs.length) :
    ResolvesTo (xs ++ ys) name j ↔
      (∀ (q : Nat) (m : IRModule γ), xs[q]? = some m → (m.Exports name ↔ q = j)) ∧
        ∀ (q : Nat) (m : IRModule γ), ys[q]? = some m → ¬ m.Exports name := by
  constructor
  · rintro ⟨-, honly⟩
    constructor
    · intro q m hq
      apply honly
      rw [List.getElem?_append_left (List.getElem?_eq_some_iff.mp hq).1, hq]
    · intro q m hq hexports
      have hposition := (honly (xs.length + q) m (by
        rw [List.getElem?_append_right (by omega), Nat.add_sub_cancel_left, hq])).mp hexports
      omega
  · rintro ⟨hxs, hys⟩
    refine ⟨by rw [List.length_append]; omega, ?_⟩
    intro q m hq
    by_cases hlt : q < xs.length
    · rw [List.getElem?_append_left hlt] at hq
      exact hxs q m hq
    · rw [List.getElem?_append_right (by omega)] at hq
      constructor
      · exact fun hexports => absurd hexports (hys _ m hq)
      · intro heq
        omega

theorem resolvesTo_right {xs ys : List (IRModule γ)} {name : Text} {k : Nat}
    (hk : k < ys.length) :
    ResolvesTo (xs ++ ys) name (xs.length + k) ↔
      (∀ (q : Nat) (m : IRModule γ), xs[q]? = some m → ¬ m.Exports name) ∧
        ∀ (q : Nat) (m : IRModule γ), ys[q]? = some m → (m.Exports name ↔ q = k) := by
  constructor
  · rintro ⟨-, honly⟩
    constructor
    · intro q m hq hexports
      have hlt : q < xs.length := (List.getElem?_eq_some_iff.mp hq).1
      have hposition := (honly q m (by rw [List.getElem?_append_left hlt, hq])).mp hexports
      omega
    · intro q m hq
      have hsame := honly (xs.length + q) m (by
        rw [List.getElem?_append_right (by omega), Nat.add_sub_cancel_left, hq])
      rw [hsame]
      omega
  · rintro ⟨hxs, hys⟩
    refine ⟨by rw [List.length_append]; omega, ?_⟩
    intro q m hq
    -- a position is one of the first list or one of the second
    by_cases hlt : q < xs.length
    · rw [List.getElem?_append_left hlt] at hq
      constructor
      · exact fun hexports => absurd hexports (hxs q m hq)
      · intro heq
        omega
    · rw [List.getElem?_append_right (by omega)] at hq
      rw [hys _ m hq]
      omega

namespace MuxOutput

/-- The modules of an output other than the generated main. -/
def others (mux : MuxOutput γ) : List (IRModule γ) :=
  mux.mains ++ mux.libs.map Prod.snd

/-- Every function that the generated main refers to is exported by one module:
the main of the case's entry, or the copy of the library with this CRC. -/
def Resolves (mux : MuxOutput γ) (es : List (MuxEntry γ)) : Prop :=
  ∀ (j : Nat) (e : MuxEntry γ) (c : Case), es[j]? = some e → mux.cases[j]? = some c →
    ∀ name ∈ c.names, ∃ position, ResolvesTo mux.others name position ∧
      (name ∈ e.ownNames → position = j) ∧
      ∀ lib ∈ e.libs, name ∈ initNames lib → ∃ k kept, mux.libs[k]? = some kept ∧
        kept.1.crc = lib.crc ∧ position = mux.mains.length + k

end MuxOutput

/-! ## The condition on the inputs -/

/-- The first library with its CRC. -/
def IsFirst (es : List (MuxEntry γ)) (lib : Entry Bytes) : Prop :=
  (libraries es).find? (fun other => decide (other.crc = lib.crc)) = some lib

structure Resolvable (bitcode : Bitcode γ) (noInternalize : Bool) (es : List (MuxEntry γ)) :
    Prop where
  /-- Only the CRC of the very first library may be a reserved key. -/
  kept : ∀ lib ∈ libraries es, isReserved lib.crc = true →
    ∃ first ∈ (libraries es).head?, first.crc = lib.crc
  /-- An entry's own functions are provided by its main alone. -/
  own : ∀ (j : Nat) (e : MuxEntry γ), es[j]? = some e → ∀ name ∈ e.ownNames,
    (∀ (j' : Nat) (e' : MuxEntry γ), es[j']? = some e' →
      (e'.Provides noInternalize name ↔ j' = j)) ∧
    ∀ first, IsFirst es first → ¬ LibProvides bitcode first name
  /-- The functions of a library are provided by the first one of its CRC alone. -/
  libs : ∀ lib ∈ libraries es, ∀ name ∈ initNames lib,
    (∀ e ∈ es, ¬ e.Provides noInternalize name) ∧
    ∀ first, IsFirst es first → (LibProvides bitcode first name ↔ first.crc = lib.crc)

/-! ## The libraries that are kept -/

/-- In a table that is not empty no reserved key is new. -/
theorem not_reserved_of_mem_newLibs {keys : List UInt32} (hkeys : keys ≠ [])
    {libs : List (Entry Bytes)} {lib : Entry Bytes} (h : lib ∈ newLibs keys libs) :
    isReserved lib.crc = false := by
  induction libs generalizing keys with
  | nil => cases h
  | cons first rest ih =>
      rw [newLibs] at h
      unfold denseInsert at h
      rw [if_neg hkeys] at h
      by_cases hreserved : isReserved first.crc = true
      · rw [if_pos hreserved] at h
        exact ih hkeys h
      · rw [if_neg hreserved] at h
        by_cases hseen : first.crc ∈ keys
        · rw [if_pos hseen] at h
          exact ih hkeys h
        · rw [if_neg hseen] at h
          rcases List.mem_cons.mp h with rfl | h
          · exact Bool.not_eq_true _ ▸ hreserved
          · exact ih (List.cons_ne_nil _ _) h

theorem newLibs_nil_cons (first : Entry Bytes) (rest : List (Entry Bytes)) :
    newLibs [] (first :: rest) = first :: newLibs [first.crc] rest := by
  rw [newLibs]
  rfl

/-- A reserved CRC that is kept is that of the very first library. -/
theorem head_of_reserved {libs : List (Entry Bytes)} {lib : Entry Bytes}
    (h : lib ∈ newLibs [] libs) (hreserved : isReserved lib.crc = true) :
    libs.head? = some lib := by
  cases libs with
  | nil => cases h
  | cons first rest =>
      rw [newLibs_nil_cons] at h
      rcases List.mem_cons.mp h with rfl | h
      · rfl
      · rw [not_reserved_of_mem_newLibs (List.cons_ne_nil _ _) h] at hreserved
        cases hreserved

/-- Where only that one may be reserved, the first libraries of all CRCs are kept. -/
theorem newLibs_eq_firsts_of_head {libs : List (Entry Bytes)}
    (h : ∀ lib ∈ libs, isReserved lib.crc = true → ∃ first ∈ libs.head?, first.crc = lib.crc) :
    newLibs [] libs = firsts Entry.crc [] libs := by
  cases libs with
  | nil => rfl
  | cons first rest =>
      rw [newLibs_nil_cons, firsts, if_neg List.not_mem_nil]
      apply congrArg (first :: ·)
      apply newLibs_eq_firsts
      intro lib hlib hreserved
      obtain ⟨_, ⟨⟩, hcrc⟩ := h lib (List.mem_cons_of_mem _ hlib) hreserved
      rw [← hcrc]
      exact List.mem_cons_self

/-! ## References and providers -/

section Output

variable {es : List (MuxEntry γ)} {mux : MuxOutput γ}

theorem MuxOutput.Of.length_mains (hmux : mux.Of bitcode noInternalize es) :
    mux.mains.length = es.length :=
  hmux.mains.length_eq.symm

/-- What the mains export, entry by entry. -/
theorem MuxOutput.Of.forall_mains (hmux : mux.Of bitcode noInternalize es) (name : Text)
    (p : Nat → Prop → Prop) :
    (∀ (q : Nat) (m : IRModule γ), mux.mains[q]? = some m → p q (m.Exports name)) ↔
      ∀ (q : Nat) (e : MuxEntry γ), es[q]? = some e → p q (e.Provides noInternalize name) := by
  constructor
  · intro h q e he
    obtain ⟨m, hm, hrewrite⟩ := forall₂_getElem? hmux.mains he
    rw [← propext (exports_rewriteMain hrewrite name)]
    exact h q m hm
  · intro h q m hm
    obtain ⟨e, he, hrewrite⟩ := forall₂_getElem? hmux.mains.flip hm
    rw [propext (exports_rewriteMain hrewrite name)]
    exact h q e he

/-- What the libraries export, copy by copy. -/
theorem MuxOutput.Of.forall_libs (hmux : mux.Of bitcode noInternalize es) (name : Text)
    (p : Nat → Prop → Prop) :
    (∀ (q : Nat) (m : IRModule γ), (mux.libs.map Prod.snd)[q]? = some m → p q (m.Exports name)) ↔
      ∀ (q : Nat) (kept : Entry Bytes × IRModule γ), mux.libs[q]? = some kept →
        p q (LibProvides bitcode kept.1 name) := by
  constructor
  · intro h q kept hkept
    rw [← propext (exports_rewriteLib (hmux.rewritten kept (List.mem_of_getElem? hkept)) name)]
    apply h
    rw [List.getElem?_map, hkept, Option.map_some]
  · intro h q m hm
    rw [List.getElem?_map] at hm
    obtain ⟨kept, hkept, rfl⟩ := Option.map_eq_some_iff.mp hm
    rw [propext (exports_rewriteLib (hmux.rewritten kept (List.mem_of_getElem? hkept)) name)]
    exact h q kept hkept

/-- The first libraries are the copies. -/
theorem isFirst_iff (hfirsts : mux.libs.map Prod.fst = firsts Entry.crc [] (libraries es))
    (lib : Entry Bytes) :
    IsFirst es lib ↔ ∃ (k : Nat) (kept : Entry Bytes × IRModule γ),
      mux.libs[k]? = some kept ∧ kept.1 = lib := by
  have hmem : IsFirst es lib ↔ lib ∈ firsts Entry.crc [] (libraries es) := by
    constructor
    · exact fun h => @mem_firsts_of_find? _ _ _ Entry.crc _ _ _ List.not_mem_nil h
    · exact fun h => @find?_of_mem_firsts _ _ _ Entry.crc _ _ _ h
  rw [hmem, ← hfirsts]
  constructor
  · intro h
    obtain ⟨kept, hkept, rfl⟩ := List.mem_map.mp h
    obtain ⟨k, hk⟩ := List.mem_iff_getElem?.mp hkept
    exact ⟨k, kept, hk, rfl⟩
  · rintro ⟨k, kept, hk, rfl⟩
    exact List.mem_map_of_mem (List.mem_of_getElem? hk)

/-- A copy is determined by its CRC. -/
theorem index_eq_of_crc (hfirsts : mux.libs.map Prod.fst = firsts Entry.crc [] (libraries es))
    {k k' : Nat} {kept kept' : Entry Bytes × IRModule γ} (hk : mux.libs[k]? = some kept)
    (hk' : mux.libs[k']? = some kept') (hcrc : kept.1.crc = kept'.1.crc) : k = k' := by
  have hnodup := @nodup_firsts _ _ _ Entry.crc [] (libraries es)
  rw [← hfirsts, List.map_map] at hnodup
  have hlt : k < (mux.libs.map (Entry.crc ∘ Prod.fst)).length := by
    rw [List.length_map]
    exact (List.getElem?_eq_some_iff.mp hk).1
  apply (List.getElem?_inj hlt hnodup).mp
  rw [List.getElem?_map, List.getElem?_map, hk, hk']
  exact congrArg some hcrc

theorem MuxOutput.Of.forall_first (hfirsts : mux.libs.map Prod.fst =
    firsts Entry.crc [] (libraries es)) (p : Entry Bytes → Prop) :
    (∀ first, IsFirst es first → p first) ↔
      ∀ (k : Nat) (kept : Entry Bytes × IRModule γ), mux.libs[k]? = some kept → p kept.1 := by
  constructor
  · exact fun h k kept hk => h kept.1 ((isFirst_iff hfirsts kept.1).mpr ⟨k, kept, hk, rfl⟩)
  · intro h first hfirst
    obtain ⟨k, kept, hk, rfl⟩ := (isFirst_iff hfirsts first).mp hfirst
    exact h k kept hk

/-- A reference to an own function of the entry at `j`. -/
theorem resolvesTo_own_iff (hmux : mux.Of bitcode noInternalize es)
    (hfirsts : mux.libs.map Prod.fst = firsts Entry.crc [] (libraries es)) {j : Nat}
    {e : MuxEntry γ} (hj : es[j]? = some e) (name : Text) :
    ResolvesTo mux.others name j ↔
      (∀ (j' : Nat) (e' : MuxEntry γ), es[j']? = some e' →
        (e'.Provides noInternalize name ↔ j' = j)) ∧
      ∀ first, IsFirst es first → ¬ LibProvides bitcode first name := by
  have hlt : j < mux.mains.length := by
    rw [hmux.length_mains]
    exact (List.getElem?_eq_some_iff.mp hj).1
  rw [MuxOutput.others, resolvesTo_left hlt, hmux.forall_mains name fun q exports => exports ↔ q = j,
    hmux.forall_libs name fun _ exports => ¬ exports,
    MuxOutput.Of.forall_first hfirsts fun first => ¬ LibProvides bitcode first name]

/-- A reference to a function of the copy at `k`. -/
theorem resolvesTo_lib_iff (hmux : mux.Of bitcode noInternalize es)
    (hfirsts : mux.libs.map Prod.fst = firsts Entry.crc [] (libraries es)) {k : Nat}
    {kept : Entry Bytes × IRModule γ} (hk : mux.libs[k]? = some kept) (name : Text) :
    ResolvesTo mux.others name (mux.mains.length + k) ↔
      (∀ e ∈ es, ¬ e.Provides noInternalize name) ∧
      ∀ first, IsFirst es first → (LibProvides bitcode first name ↔ first.crc = kept.1.crc) := by
  have hlt : k < (mux.libs.map Prod.snd).length := by
    rw [List.length_map]
    exact (List.getElem?_eq_some_iff.mp hk).1
  rw [MuxOutput.others, resolvesTo_right hlt, hmux.forall_mains name fun _ exports => ¬ exports,
    hmux.forall_libs name fun q exports => exports ↔ q = k,
    MuxOutput.Of.forall_first hfirsts
      fun first => LibProvides bitcode first name ↔ first.crc = kept.1.crc]
  apply and_congr
  · constructor
    · intro h e he
      obtain ⟨q, hq⟩ := List.mem_iff_getElem?.mp he
      exact h q e hq
    · exact fun h q e hq => h e (List.mem_of_getElem? hq)
  · apply forall_congr'
    intro q
    apply forall_congr'
    intro kept'
    apply imp_congr_right
    intro hq
    -- a kept library is found by its CRC
    have hposition : q = k ↔ kept'.1.crc = kept.1.crc := by
      constructor
      · rintro rfl
        cases hk.symm.trans hq
        rfl
      · exact index_eq_of_crc hfirsts hq hk
    rw [hposition]

/-- What the entries refer to names the libraries that are kept. -/
theorem resolvable_of_resolves (hmux : mux.Of bitcode noInternalize es)
    (hresolves : mux.Resolves es) : Resolvable bitcode noInternalize es := by
  have hfound : ∀ e ∈ es, ∀ name, (name ∈ e.ownNames ∨ ∃ lib ∈ e.libs, name ∈ initNames lib) →
      ∀ j, es[j]? = some e → ∃ position, ResolvesTo mux.others name position ∧
        (name ∈ e.ownNames → position = j) ∧
        ∀ lib ∈ e.libs, name ∈ initNames lib → ∃ k kept, mux.libs[k]? = some kept ∧
          kept.1.crc = lib.crc ∧ position = mux.mains.length + k := by
    intro e _ name hname j hj
    obtain ⟨c, hc, hcase⟩ := forall₂_getElem? (forall₂_genMain hmux.cases) hj
    exact hresolves j e c hj hc name ((mem_names_genCase hcase).mpr hname)
  have hcopy : ∀ lib ∈ libraries es, ∀ name ∈ initNames lib, ∃ k kept,
      mux.libs[k]? = some kept ∧ kept.1.crc = lib.crc ∧
        ResolvesTo mux.others name (mux.mains.length + k) := by
    intro lib hlib name hname
    obtain ⟨e, he, hmem⟩ := List.mem_flatMap.mp hlib
    obtain ⟨j, hj⟩ := List.mem_iff_getElem?.mp he
    obtain ⟨position, hposition, -, hlibs⟩ :=
      hfound e he name (Or.inr ⟨lib, hmem, hname⟩) j hj
    obtain ⟨k, kept, hk, hcrc, rfl⟩ := hlibs lib hmem hname
    exact ⟨k, kept, hk, hcrc, hposition⟩
  -- a library with a reserved CRC is kept at the front only
  have hkept : ∀ lib ∈ libraries es, isReserved lib.crc = true →
      ∃ first ∈ (libraries es).head?, first.crc = lib.crc := by
    intro lib hlib hreserved
    obtain ⟨k, kept, hk, hcrc, -⟩ := hcopy lib hlib _ List.mem_cons_self
    have hmem : kept.1 ∈ newLibs [] (libraries es) := by
      rw [← hmux.libs]
      exact List.mem_map_of_mem (List.mem_of_getElem? hk)
    exact ⟨kept.1, head_of_reserved hmem (hcrc ▸ hreserved), hcrc⟩
  have hfirsts : mux.libs.map Prod.fst = firsts Entry.crc [] (libraries es) := by
    rw [hmux.libs, newLibs_eq_firsts_of_head hkept]
  refine ⟨hkept, ?_, ?_⟩
  · intro j e hj name hname
    obtain ⟨position, hposition, hown, -⟩ :=
      hfound e (List.mem_of_getElem? hj) name (Or.inl hname) j hj
    rw [hown hname] at hposition
    exact (resolvesTo_own_iff hmux hfirsts hj name).mp hposition
  · intro lib hlib name hname
    obtain ⟨k, kept, hk, hcrc, hposition⟩ := hcopy lib hlib name hname
    rw [← hcrc]
    exact (resolvesTo_lib_iff hmux hfirsts hk name).mp hposition

theorem resolves_of_resolvable (hmux : mux.Of bitcode noInternalize es)
    (h : Resolvable bitcode noInternalize es) : mux.Resolves es := by
  have hfirsts : mux.libs.map Prod.fst = firsts Entry.crc [] (libraries es) := by
    rw [hmux.libs, newLibs_eq_firsts_of_head h.kept]
  intro j e c hj hc name hname
  obtain ⟨c', hc', hcase⟩ := forall₂_getElem? (forall₂_genMain hmux.cases) hj
  cases hc.symm.trans hc'
  have he : e ∈ es := List.mem_of_getElem? hj
  have hlibrary : ∀ lib ∈ e.libs, lib ∈ libraries es :=
    fun lib hmem => List.mem_flatMap.mpr ⟨e, he, hmem⟩
  -- no function belongs to an entry and to a library
  have hapart : name ∈ e.ownNames → ∀ lib ∈ e.libs, name ∉ initNames lib := by
    intro hown lib hmem hinit
    exact (h.libs lib (hlibrary lib hmem) name hinit).1 e he
      (((h.own j e hj name hown).1 j e hj).mpr rfl)
  rcases (mem_names_genCase hcase).mp hname with hown | ⟨lib, hmem, hinit⟩
  · refine ⟨j, ?_, fun _ => rfl, ?_⟩
    · exact (resolvesTo_own_iff hmux hfirsts hj name).mpr (h.own j e hj name hown)
    · exact fun lib hmem hinit => absurd hinit (hapart hown lib hmem)
  · obtain hseen | ⟨first, hfirst, hcrc⟩ :=
      @exists_mem_firsts _ _ _ Entry.crc _ _ (hlibrary lib hmem) []
    · cases hseen
    rw [← hfirsts] at hfirst
    obtain ⟨kept, hkept, rfl⟩ := List.mem_map.mp hfirst
    obtain ⟨k, hk⟩ := List.mem_iff_getElem?.mp hkept
    have hlibs := h.libs lib (hlibrary lib hmem) name hinit
    refine ⟨mux.mains.length + k, ?_, ?_, ?_⟩
    · apply (resolvesTo_lib_iff hmux hfirsts hk name).mpr
      rw [hcrc]
      exact hlibs
    · exact fun hown => absurd hinit (hapart hown lib hmem)
    · intro lib' hmem' hinit'
      refine ⟨k, kept, hk, ?_, rfl⟩
      -- the copy provides the name, so its CRC is that of either library
      have hfirst' : IsFirst es kept.1 := (isFirst_iff hfirsts kept.1).mpr ⟨k, kept, hk, rfl⟩
      exact ((h.libs lib' (hlibrary lib' hmem') name hinit').2 kept.1 hfirst').mp
        ((hlibs.2 kept.1 hfirst').mpr hcrc)

/-- **References**: every function that the generated main declares is exported by
the one intended module, just where the inputs are resolvable. -/
theorem resolves_iff (hmux : mux.Of bitcode noInternalize es) :
    mux.Resolves es ↔ Resolvable bitcode noInternalize es :=
  ⟨resolvable_of_resolves hmux, resolves_of_resolvable hmux⟩

end Output

/-! ## Inputs without generated names -/

/-- The names of all functions that the generated main refers to. -/
def generatedNames (es : List (MuxEntry γ)) : List Text :=
  es.flatMap MuxEntry.ownNames ++ (libraries es).flatMap initNames

/-- All inputs can be read, and no module has a symbol of a generated name. -/
structure PlainInputs (bitcode : Bitcode γ) (es : List (MuxEntry γ)) : Prop where
  mains : ∀ e ∈ es, (∃ g ∈ e.main.symbols mainText, g.isDeclaration = false) ∧
    ∀ name ∈ generatedNames es, e.main.symbols name = none
  libs : ∀ lib ∈ libraries es, ∃ m, bitcode.read lib.contents = some m ∧
    ∀ name ∈ generatedNames es, m.symbols name = none

section Plain

variable {es : List (MuxEntry γ)}

theorem mem_generatedNames_own {e : MuxEntry γ} (he : e ∈ es) {name : Text}
    (hname : name ∈ e.ownNames) : name ∈ generatedNames es :=
  List.mem_append_left _ (List.mem_flatMap.mpr ⟨e, he, hname⟩)

theorem mem_generatedNames_lib {lib : Entry Bytes} (hlib : lib ∈ libraries es) {name : Text}
    (hname : name ∈ initNames lib) : name ∈ generatedNames es :=
  List.mem_append_right _ (List.mem_flatMap.mpr ⟨lib, hlib, hname⟩)

theorem PlainInputs.provides_iff (h : PlainInputs bitcode es) {e : MuxEntry γ} (he : e ∈ es)
    {name : Text} (hname : name ∈ generatedNames es) :
    e.Provides noInternalize name ↔ name ∈ e.ownNames := by
  obtain ⟨hmain, hfree⟩ := h.mains e he
  have hnew : e.newMainName = e.mainName :=
    (newMainName_eq_iff e).mpr (hfree _ (mem_generatedNames_own he List.mem_cons_self))
  unfold MuxEntry.Provides
  rw [hnew]
  by_cases hname' : name = e.mainName
  · rw [if_pos hname', hname']
    exact iff_of_true hmain List.mem_cons_self
  · rw [if_neg hname']
    have htext : name ≠ mainText := by
      rintro rfl
      obtain ⟨g, hg, -⟩ := hmain
      rw [hfree _ hname] at hg
      cases hg
    rw [if_neg htext, hfree name hname]
    exact (List.mem_cons.trans (or_iff_right hname')).symm

theorem PlainInputs.libProvides_iff (h : PlainInputs bitcode es) {lib : Entry Bytes}
    (hlib : lib ∈ libraries es) {name : Text} (hname : name ∈ generatedNames es) :
    LibProvides bitcode lib name ↔ name ∈ initNames lib := by
  obtain ⟨m, hread, hfree⟩ := h.libs lib hlib
  have hexports : m.ExportsWith (initNames lib) name ↔ name ∈ initNames lib := by
    unfold IRModule.ExportsWith
    rw [hfree name hname]
  constructor
  · rintro ⟨m', hread', hm'⟩
    cases hread.symm.trans hread'
    exact hexports.mp hm'
  · exact fun hinit => ⟨m, hread, hexports.mpr hinit⟩

theorem IsFirst.mem {lib : Entry Bytes} (h : IsFirst es lib) : lib ∈ libraries es :=
  List.mem_of_find?_eq_some h

/-- Every library has a first one with its CRC. -/
theorem exists_isFirst {lib : Entry Bytes} (hlib : lib ∈ libraries es) :
    ∃ first, IsFirst es first ∧ first.crc = lib.crc := by
  cases hfind : (libraries es).find? (fun other => decide (other.crc = lib.crc)) with
  | none =>
      have hnone := List.find?_eq_none.mp hfind lib hlib
      simp at hnone
  | some first =>
      have hcrc : first.crc = lib.crc := by simpa using List.find?_some hfind
      refine ⟨first, ?_, hcrc⟩
      unfold IsFirst
      rw [hcrc, hfind]

theorem names_of_resolvable (h : PlainInputs bitcode es)
    (hresolvable : Resolvable bitcode noInternalize es) :
    (∀ lib ∈ libraries es, ∀ lib' ∈ libraries es, lib.crc = lib'.crc →
        getModName lib = getModName lib') ∧
      ∀ e ∈ es, ∀ lib ∈ libraries es, e.base ≠ getModName lib := by
  have hfirst : ∀ lib ∈ libraries es, ∀ first, IsFirst es first → first.crc = lib.crc →
      getModName lib = getModName first := by
    intro lib hlib first hfirst hcrc
    have hname : getLibCtorsName lib ∈ initNames lib := List.mem_cons_self
    have hprovides := ((hresolvable.libs lib hlib _ hname).2 first hfirst).mpr hcrc
    have hmade := (h.libProvides_iff hfirst.mem (mem_generatedNames_lib hlib hname)).mp hprovides
    exact getModName_eq_of_mem_initNames hname hmade
  constructor
  · intro lib hlib lib' hlib' hcrc
    obtain ⟨first, hisFirst, hcrc'⟩ := exists_isFirst hlib
    rw [hfirst lib hlib first hisFirst hcrc',
      hfirst lib' hlib' first hisFirst (hcrc'.trans hcrc)]
  · intro e he lib hlib hbase
    have hctors : e.getCtorsName = getLibCtorsName lib := by
      unfold MuxEntry.getCtorsName getLibCtorsName
      rw [hbase]
    have hown : getLibCtorsName lib ∈ e.ownNames :=
      hctors ▸ List.mem_cons_of_mem _ List.mem_cons_self
    exact (hresolvable.libs lib hlib _ List.mem_cons_self).1 e he
      ((h.provides_iff he (mem_generatedNames_own he hown)).mpr hown)

theorem resolvable_of_names (h : PlainInputs bitcode es) (hnodup : (es.map MuxEntry.base).Nodup)
    (hkept : ∀ lib ∈ libraries es, isReserved lib.crc = true →
      ∃ first ∈ (libraries es).head?, first.crc = lib.crc)
    (hsame : ∀ lib ∈ libraries es, ∀ lib' ∈ libraries es, lib.crc = lib'.crc →
      getModName lib = getModName lib')
    (hbases : ∀ e ∈ es, ∀ lib ∈ libraries es, e.base ≠ getModName lib) :
    Resolvable bitcode noInternalize es := by
  -- a generated name says which entry, or which library, it was made of
  refine ⟨hkept, ?_, ?_⟩
  · intro j e hj name hname
    have he : e ∈ es := List.mem_of_getElem? hj
    have hgenerated := mem_generatedNames_own he hname
    constructor
    · intro j' e' hj'
      rw [h.provides_iff (List.mem_of_getElem? hj') hgenerated]
      constructor
      · intro hname'
        exact index_eq_of_base hnodup hj' hj (base_eq_of_mem_ownNames hname' hname)
      · rintro rfl
        cases hj.symm.trans hj'
        exact hname
    · intro first hfirst hprovides
      have hmade := (h.libProvides_iff hfirst.mem hgenerated).mp hprovides
      exact hbases e he first hfirst.mem (base_eq_of_mem_initNames hname hmade)
  · intro lib hlib name hname
    have hgenerated := mem_generatedNames_lib hlib hname
    constructor
    · intro e he hprovides
      have hown := (h.provides_iff he hgenerated).mp hprovides
      exact hbases e he lib hlib (base_eq_of_mem_initNames hown hname)
    · intro first hfirst
      rw [h.libProvides_iff hfirst.mem hgenerated]
      constructor
      · intro hmade
        exact crc_eq_of_getModName (getModName_eq_of_mem_initNames hmade hname)
      · intro hcrc
        obtain ⟨start, hstart, hinit, rfl⟩ := mem_initNames_iff.mp hname
        rw [hsame lib hlib first hfirst.mem hcrc.symm]
        exact mem_initNames_iff.mpr ⟨start, hstart, hinit, rfl⟩

/-- Inputs without generated names are resolvable where libraries with one CRC have
one file name, and no base name is the module name of a library. -/
theorem resolvable_iff_of_plain (h : PlainInputs bitcode es)
    (hnodup : (es.map MuxEntry.base).Nodup) :
    Resolvable bitcode noInternalize es ↔
      (∀ lib ∈ libraries es, isReserved lib.crc = true →
        ∃ first ∈ (libraries es).head?, first.crc = lib.crc) ∧
      (∀ lib ∈ libraries es, ∀ lib' ∈ libraries es, lib.crc = lib'.crc →
        getModName lib = getModName lib') ∧
      ∀ e ∈ es, ∀ lib ∈ libraries es, e.base ≠ getModName lib := by
  constructor
  · intro hresolvable
    exact ⟨hresolvable.kept, names_of_resolvable h hresolvable⟩
  · rintro ⟨hkept, hsame, hbases⟩
    exact resolvable_of_names h hnodup hkept hsame hbases

end Plain

/-! ## Two programs with one library -/

theorem plainInputs_bothPrograms : PlainInputs nameBitcode (bothPrograms 1 2) := by
  have hnames : ∀ name ∈ generatedNames (bothPrograms 1 2),
      name ≠ mainText ∧ name ≠ ascii "f" ∧ name ≠ ascii "g" := by
    decide
  have hfree : ∀ name other : Text, other ≠ name → (oneFunction name).symbols other = none :=
    fun name other hne => by simp [oneFunction, hne]
  constructor
  · intro e he
    have hmain : e.main = oneFunction mainText := by
      rcases List.mem_cons.mp he with rfl | he
      · rfl
      · rw [List.mem_singleton.mp he]
        rfl
    rw [hmain]
    exact ⟨⟨_, rfl, rfl⟩, fun name hname => hfree _ _ (hnames name hname).1⟩
  · intro lib hlib
    refine ⟨oneFunction lib.contents, rfl, fun name hname => hfree _ _ ?_⟩
    have hmem : lib ∈ [⟨ascii "x.bc", 1, ascii "f"⟩, ⟨ascii "y.bc", 2, ascii "g"⟩] := hlib
    rcases List.mem_cons.mp hmem with rfl | hmem
    · exact (hnames name hname).2.1
    · rw [List.mem_singleton.mp hmem]
      exact (hnames name hname).2.2

theorem resolves_bothPrograms :
    ∃ mux : MuxOutput Unit, mux.Of nameBitcode false (bothPrograms 1 2) ∧
      mux.Resolves (bothPrograms 1 2) := by
  obtain ⟨mux, hmux⟩ := exists_of_bothPrograms 1 2
  refine ⟨mux, hmux, (resolves_iff hmux).mpr ?_⟩
  apply (resolvable_iff_of_plain plainInputs_bothPrograms (by decide)).mpr
  refine ⟨?_, ?_, ?_⟩
  · decide
  · decide
  · decide

/-- One library under two file names: the functions that the second program's cases
name after its own file are made nowhere. -/
theorem reference_dangles :
    ∃ mux : MuxOutput Unit,
      readEntries nameBitcode [] ((bothPrograms 1 1).map MuxEntry.input) =
        some (bothPrograms 1 1) ∧
      mux.Of nameBitcode false (bothPrograms 1 1) ∧ ¬ mux.Resolves (bothPrograms 1 1) := by
  obtain ⟨hread, -⟩ := bothRun_succeeds 1 1 fun _ => none
  obtain ⟨mux, hmux⟩ := exists_of_bothPrograms 1 1
  refine ⟨mux, hread, hmux, ?_⟩
  intro hresolves
  obtain ⟨c, hc, -⟩ := forall₂_getElem? (forall₂_genMain hmux.cases)
    (show (bothPrograms 1 1)[1]? = some _ from rfl)
  have hname : ascii "ctors_1-y.bc" ∈ c.names := by
    rw [← Option.some.inj hmux.cases] at hc
    cases hc
    decide
  obtain ⟨position, ⟨-, honly⟩, -, hlibs⟩ := hresolves 1 _ c rfl hc _ hname
  obtain ⟨k, kept, hk, -, rfl⟩ :=
    hlibs ⟨ascii "y.bc", 1, ascii "g"⟩ List.mem_cons_self (by decide)
  have hexports : kept.2.Exports (ascii "ctors_1-y.bc") := by
    refine (honly (mux.mains.length + k) kept.2 ?_).mpr rfl
    rw [MuxOutput.others, List.getElem?_append_right (by omega), Nat.add_sub_cancel_left,
      List.getElem?_map, hk, Option.map_some]
  -- the only copy is that of `x.bc`
  have hcopy : kept.1 = ⟨ascii "x.bc", 1, ascii "f"⟩ := by
    have hmem := @List.mem_map_of_mem _ _ _ _ Prod.fst (List.mem_of_getElem? hk)
    rw [hmux.libs] at hmem
    exact List.mem_singleton.mp hmem
  have hprovides := (exports_rewriteLib (hmux.rewritten kept (List.mem_of_getElem? hk)) _).mp hexports
  rw [hcopy] at hprovides
  obtain ⟨_, ⟨⟩, hmade⟩ := hprovides
  revert hmade
  show ascii "ctors_1-y.bc" ∈ initNames ⟨ascii "x.bc", 1, ascii "f"⟩ → False
  decide

end Allmux
end AllvmTools
