import AllvmTools.Allmux.Allmux

/-!
# Accepted entries and their names

What the generated code and the rewritten modules have in common: the entries,
and the names made of their base names and of their libraries.

* `nodup_bases` — accepted entries have distinct base names.
* `eq_of_starts` — a name of a function determines what it was made of.
* `forall₂_genMain`, `mem_names_genCase` — the cases of the generated main, entry
  by entry, and the functions they refer to.
-/

namespace AllvmTools
namespace Allmux

open Library Library.Files Library.Paths Archive Tools

variable {γ : Type} {bitcode : Bitcode γ}

/-! ## Base names -/

theorem nodup_bases {basenames : List Text} {inputs : List Input} {es : List (MuxEntry γ)}
    (h : readEntries bitcode basenames inputs = some es) :
    (es.map MuxEntry.base).Nodup ∧ ∀ e ∈ es, e.base ∉ basenames := by
  induction inputs generalizing basenames es with
  | nil =>
      cases h
      exact ⟨List.nodup_nil, fun e he => absurd he List.not_mem_nil⟩
  | cons input rest ih =>
      rw [readEntries] at h
      split at h
      · cases h
      split at h
      · cases h
      split at h
      · cases h
      split at h
      · cases h
      next hfresh =>
      obtain ⟨others, hothers, rfl⟩ := Option.map_eq_some_iff.mp h
      obtain ⟨hnodup, hnew⟩ := ih hothers
      constructor
      · rw [List.map_cons, List.nodup_cons]
        refine ⟨?_, hnodup⟩
        intro hmem
        obtain ⟨e, he, hbase⟩ := List.mem_map.mp hmem
        -- a later entry is checked against this one's base name
        apply hnew e he
        rw [hbase]
        exact List.mem_cons_self
      · intro e he
        rcases List.mem_cons.mp he with rfl | he
        · exact hfresh
        · exact fun hmem => hnew e he (List.mem_cons_of_mem _ hmem)

/-- The entry behind a position is determined by its base name. -/
theorem index_eq_of_base {es : List (MuxEntry γ)} (hnodup : (es.map MuxEntry.base).Nodup)
    {j j' : Nat} {e e' : MuxEntry γ} (hj : es[j]? = some e) (hj' : es[j']? = some e')
    (hbase : e.base = e'.base) : j = j' := by
  have hlt : j < (es.map MuxEntry.base).length := by
    rw [List.length_map]
    exact (List.getElem?_eq_some_iff.mp hj).1
  apply (List.getElem?_inj hlt hnodup).mp
  rw [List.getElem?_map, List.getElem?_map, hj, hj', Option.map_some, Option.map_some, hbase]

/-! ## Names of functions -/

namespace MuxEntry

/-- The functions that belong to an entry itself. -/
def ownNames (e : MuxEntry γ) : List Text :=
  [e.mainName, e.getCtorsName, e.getDtorsName]

end MuxEntry

/-- The functions made in a library. -/
def initNames (lib : Entry Bytes) : List Text :=
  [getLibCtorsName lib, getLibDtorsName lib]

/-- What the names of functions start with. -/
def starts : List Text :=
  [ascii "main_", ascii "ctors_", ascii "dtors_"]

/-- The start of a name and what it is made of are determined by the name. -/
theorem eq_of_starts {start start' a b : Text} (hstart : start ∈ starts)
    (hstart' : start' ∈ starts) (h : start ++ a = start' ++ b) : start = start' ∧ a = b := by
  have hdistinct : ∀ p ∈ starts, ∀ q ∈ starts, p ≠ [] ∧ (p.head? = q.head? → p = q) := by
    decide
  by_cases hhead : start.head? = start'.head?
  · have hsame := (hdistinct start hstart start' hstart').2 hhead
    rw [hsame] at h
    exact ⟨hsame, List.append_cancel_left h⟩
  · exact absurd h (Text.append_ne_append_of_head (hdistinct start hstart start' hstart').1
      (hdistinct start' hstart' start hstart).1 hhead a b)

theorem mem_ownNames_iff {e : MuxEntry γ} {name : Text} :
    name ∈ e.ownNames ↔ ∃ start ∈ starts, name = start ++ e.base := by
  simp [starts, MuxEntry.ownNames, MuxEntry.mainName, MuxEntry.getCtorsName,
    MuxEntry.getDtorsName]

theorem mem_initNames_iff {lib : Entry Bytes} {name : Text} :
    name ∈ initNames lib ↔
      ∃ start ∈ starts, start ≠ ascii "main_" ∧ name = start ++ getModName lib := by
  have hctors : ascii "ctors_" ≠ ascii "main_" := by decide
  have hdtors : ascii "dtors_" ≠ ascii "main_" := by decide
  simp [starts, initNames, getLibCtorsName, getLibDtorsName, hctors, hdtors]

theorem base_eq_of_mem_ownNames {e e' : MuxEntry γ} {name : Text} (h : name ∈ e.ownNames)
    (h' : name ∈ e'.ownNames) : e.base = e'.base := by
  obtain ⟨start, hstart, rfl⟩ := mem_ownNames_iff.mp h
  obtain ⟨start', hstart', heq⟩ := mem_ownNames_iff.mp h'
  exact (eq_of_starts hstart hstart' heq).2

theorem getModName_eq_of_mem_initNames {lib lib' : Entry Bytes} {name : Text}
    (h : name ∈ initNames lib) (h' : name ∈ initNames lib') :
    getModName lib = getModName lib' := by
  obtain ⟨start, hstart, -, rfl⟩ := mem_initNames_iff.mp h
  obtain ⟨start', hstart', -, heq⟩ := mem_initNames_iff.mp h'
  exact (eq_of_starts hstart hstart' heq).2

theorem base_eq_of_mem_initNames {e : MuxEntry γ} {lib : Entry Bytes} {name : Text}
    (h : name ∈ e.ownNames) (h' : name ∈ initNames lib) : e.base = getModName lib := by
  obtain ⟨start, hstart, rfl⟩ := mem_ownNames_iff.mp h
  obtain ⟨start', hstart', -, heq⟩ := mem_initNames_iff.mp h'
  exact (eq_of_starts hstart hstart' heq).2

/-- The module name of a library starts with its CRC, which a dash ends. -/
theorem crc_eq_of_getModName {lib lib' : Entry Bytes} (h : getModName lib = getModName lib') :
    lib.crc = lib'.crc := by
  have hdash : ∀ n, dash ∉ Text.hexUpper n :=
    fun n => Text.not_mem_hexUpper n (show ∀ d < 16, Text.hexDigit d ≠ dash by decide)
  have hcrc : Text.hexUpper lib.crc.toNat = Text.hexUpper lib'.crc.toNat := by
    unfold getModName at h
    dsimp only at h
    split at h
    · split at h
      · exact (Text.append_cons_inj_left (hdash _) (hdash _) h).1
      · exact absurd (h ▸ List.mem_append_right _ List.mem_cons_self) (hdash lib'.crc.toNat)
    · split at h
      · exact absurd (h.symm ▸ List.mem_append_right _ List.mem_cons_self) (hdash lib.crc.toNat)
      · exact h
  exact UInt32.toNat_inj.mp (Text.hexUpper_injective hcrc)

/-! ## The generated cases -/

/-- The function that a step refers to. -/
def MuxCall.name : MuxCall → Text
  | callCtor name => name
  | registerDtor name => name

/-- The functions that a case declares and calls or registers. -/
def Case.names (c : Case) : List Text :=
  c.steps.map MuxCall.name ++ [c.realMain]

theorem forall₂_genMain {es : List (MuxEntry γ)} {cases : List Case}
    (h : genMain es = some cases) :
    List.Forall₂ (fun e c => genCase e = some c) es cases := by
  induction es generalizing cases with
  | nil =>
      cases h
      exact .nil
  | cons e rest ih =>
      rw [genMain] at h
      split at h
      next c cs hcase hrest =>
        cases h
        exact .cons hcase (ih hrest)
      · cases h

/-- The case that is generated for an entry. -/
theorem genCase_eq_some {e : MuxEntry γ} {c : Case} (h : genCase e = some c) :
    ∃ type, e.main.getFunction mainText = some type ∧ type.params <+: selectParams ∧
      (type.result = .void ∨ type.result = .int 32) ∧
      c = { base := e.base
            steps := e.libs.reverse.flatMap libSteps ++
              [.callCtor e.getCtorsName, .registerDtor e.getDtorsName]
            realMain := e.mainName
            args := type.params.length
            isVoid := decide (type.result = .void) } := by
  unfold genCase at h
  split at h
  · cases h
  next type hmain =>
    split at h
    next htype =>
      exact ⟨type, hmain, htype.1, htype.2, (Option.some.inj h).symm⟩
    · cases h

theorem mem_names_genCase {e : MuxEntry γ} {c : Case} (h : genCase e = some c) {name : Text} :
    name ∈ c.names ↔ name ∈ e.ownNames ∨ ∃ lib ∈ e.libs, name ∈ initNames lib := by
  obtain ⟨type, -, -, -, rfl⟩ := genCase_eq_some h
  simp only [Case.names, MuxEntry.ownNames, initNames, libSteps, MuxCall.name, List.map_append,
    List.map_flatMap, List.mem_append, List.mem_flatMap, List.mem_reverse, List.map_cons,
    List.map_nil, List.mem_cons, List.not_mem_nil, or_false]
  constructor
  · rintro ((hlib | hinit) | hmain)
    · exact Or.inr hlib
    · exact Or.inl (Or.inr hinit)
    · exact Or.inl (Or.inl hmain)
  · rintro ((hmain | hinit) | hlib)
    · exact Or.inr hmain
    · exact Or.inl (Or.inr hinit)
    · exact Or.inl (Or.inl hlib)

end Allmux
end AllvmTools
