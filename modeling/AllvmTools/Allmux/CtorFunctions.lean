import AllvmTools.Allmux.IRModule

/-!
# From constructor arrays to constructor functions

An array that `findGlobalCtorsDtors` accepts is converted by two other loops, which
read its entries differently.

* `parse_eq_functions_iff` — which arrays are parsed to just their functions.
* `converts_iff` — when the function that is made calls just those.
* `null_is_called` — accepted arrays for which it does not.
-/

namespace AllvmTools
namespace Allmux

open Library

variable {β : Type}

/-! ## Arrays -/

/-- The function of an entry, if it has one. -/
def CtorElem.function? : CtorElem → Option CtorFn
  | .zero => none
  | .struct _ .null => none
  | .struct _ fn => some fn

namespace CtorArray

/-- The functions of an array. -/
def functions (array : CtorArray) : List CtorFn :=
  match array.init with
  | .zero => []
  | .array elems => elems.filterMap CtorElem.function?

/-- No entry is zero or has no function. -/
def Plain (array : CtorArray) : Prop :=
  match array.init with
  | .zero => True
  | .array elems => ∀ elem ∈ elems, elem.function?.isSome = true

theorem fns_eq_some_iff {elems : List CtorElem} :
    fns elems = some (elems.filterMap CtorElem.function?) ↔
      ∀ elem ∈ elems, elem.function?.isSome = true := by
  induction elems with
  | nil => simp [fns]
  | cons elem rest ih =>
      rw [List.forall_mem_cons, ← ih]
      cases elem with
      | zero => simp [fns, CtorElem.function?]
      | struct priority fn =>
          cases fn with
          | null =>
              -- a null function is parsed, and no list of functions holds it
              rw [fns, List.filterMap_cons_none rfl]
              refine iff_of_false ?_ (fun h => absurd h.1 (by simp [CtorElem.function?]))
              intro h
              obtain ⟨parsed, -, hparsed⟩ := Option.map_eq_some_iff.mp h
              have hnull : CtorFn.null ∈ rest.filterMap CtorElem.function? :=
                hparsed ▸ List.mem_cons_self
              obtain ⟨elem, -, helem⟩ := List.mem_filterMap.mp hnull
              cases elem with
              | zero => cases helem
              | struct priority fn => cases fn <;> cases helem
          | function name => simp [fns, CtorElem.function?]
          | cast name => simp [fns, CtorElem.function?]
          | other code => simp [fns, CtorElem.function?]

theorem parse_eq_functions_iff (array : CtorArray) :
    array.parse = some array.functions ↔ array.Plain := by
  unfold parse functions Plain
  cases array.init with
  | zero => simp
  | array elems => exact fns_eq_some_iff

end CtorArray

/-! ## Functions -/

namespace IRModule

/-- The function of this name calls these, each once and in this order, and does
nothing else. -/
def Calls (m : IRModule β) (name : Text) (fns : List CtorFn) : Prop :=
  ∃ g ∈ m.symbols name, g.content = .function voidFn [.calls fns]

/-- A function can be made under this name: there is none, or only its declaration. -/
def NameFree (m : IRModule β) (name : Text) : Prop :=
  ∀ g ∈ m.symbols name, g.content = .function voidFn []

theorem getOrInsertVoidFn_eq_none {m : IRModule β} {name : Text} {g : Global β}
    (hsymbol : m.symbols name = some g) (hother : ∀ blocks, g.content ≠ .function voidFn blocks) :
    m.getOrInsertVoidFn name = none := by
  unfold getOrInsertVoidFn
  rw [hsymbol]
  dsimp only
  split
  · next type blocks hcontent =>
      apply if_neg
      rintro rfl
      exact hother blocks hcontent
  · rfl

theorem calls_createCtorDtorFunc_iff {m : IRModule β} {name : Text} {fns calls : List CtorFn} :
    (∃ m', m.createCtorDtorFunc fns name = some m' ∧ m'.Calls name calls) ↔
      fns = calls ∧ m.NameFree name := by
  by_cases hvoid : ∀ g ∈ m.symbols name, ∃ blocks, g.content = .function voidFn blocks
  · unfold createCtorDtorFunc getOrInsertVoidFn Calls NameFree
    cases hsymbol : m.symbols name with
    | none => simp
    | some g =>
        have hbody : ∀ blocks : List (BasicBlock β),
            blocks ++ [.calls fns] = [.calls calls] ↔ fns = calls ∧ blocks = [] := by
          intro blocks
          rw [List.append_eq_singleton_iff]
          simp [and_comm]
        obtain ⟨blocks, hcontent⟩ := hvoid g hsymbol
        simp [hcontent, hbody]
  · simp only [not_forall, not_exists] at hvoid
    obtain ⟨g, hsymbol, hother⟩ := hvoid
    refine iff_of_false ?_ (fun h => hother [] (h.2 g hsymbol))
    rintro ⟨m', hcreate, -⟩
    unfold createCtorDtorFunc at hcreate
    rw [getOrInsertVoidFn_eq_none hsymbol hother] at hcreate
    cases hcreate

/-- The array of constructors is converted: it is gone, and the function made in its
place calls just the functions it had. -/
def ConvertsCtors (m : IRModule β) (name : Text) (array : CtorArray) : Prop :=
  ∃ m', m.replaceCtors name = some m' ∧ m'.ctors = none ∧ m'.Calls name array.functions

/-- The same for the destructors. -/
def ConvertsDtors (m : IRModule β) (name : Text) (array : CtorArray) : Prop :=
  ∃ m', m.replaceDtors name = some m' ∧ m'.dtors = none ∧ m'.Calls name array.functions

theorem ctors_createCtorDtorFunc {fns : List CtorFn} {m m' : IRModule β} {name : Text}
    (h : m.createCtorDtorFunc fns name = some m') : m'.ctors = m.ctors ∧ m'.dtors = m.dtors := by
  obtain ⟨g, rfl, -, -⟩ := symbols_createCtorDtorFunc h
  exact ⟨rfl, rfl⟩

/-- What is left of an accepted array once its parsing is known. -/
theorem calls_parse_iff {m : IRModule β} {name : Text} (array : CtorArray) :
    (∃ fns m', array.parse = some fns ∧ m.createCtorDtorFunc fns name = some m' ∧
      m'.Calls name array.functions) ↔ array.Plain ∧ m.NameFree name := by
  rw [← CtorArray.parse_eq_functions_iff]
  constructor
  · rintro ⟨fns, m', hparse, hcreate, hcalls⟩
    obtain ⟨rfl, hfree⟩ := calls_createCtorDtorFunc_iff.mp ⟨m', hcreate, hcalls⟩
    exact ⟨hparse, hfree⟩
  · rintro ⟨hparse, hfree⟩
    obtain ⟨m', hcreate, hcalls⟩ := calls_createCtorDtorFunc_iff.mpr ⟨rfl, hfree⟩
    exact ⟨_, m', hparse, hcreate, hcalls⟩

theorem convertsCtors_iff {m : IRModule β} {name : Text} {array : CtorArray}
    (h : CtorArray.find m.ctors = some (some array)) :
    m.ConvertsCtors name array ↔ array.Plain ∧ m.NameFree name := by
  have hfree : m.NameFree name ↔ { m with ctors := none }.NameFree name := Iff.rfl
  rw [hfree, ← calls_parse_iff]
  unfold ConvertsCtors replaceCtors
  rw [h]
  dsimp only
  cases hparse : array.parse with
  | none => simp
  | some fns =>
      constructor
      · rintro ⟨m', hcreate, -, hcalls⟩
        exact ⟨fns, m', rfl, hcreate, hcalls⟩
      · rintro ⟨_, m', ⟨⟩, hcreate, hcalls⟩
        exact ⟨m', hcreate, (ctors_createCtorDtorFunc hcreate).1, hcalls⟩

theorem convertsDtors_iff {m : IRModule β} {name : Text} {array : CtorArray}
    (h : CtorArray.find m.dtors = some (some array)) :
    m.ConvertsDtors name array ↔ array.Plain ∧ m.NameFree name := by
  have hfree : m.NameFree name ↔ { m with dtors := none }.NameFree name := Iff.rfl
  rw [hfree, ← calls_parse_iff]
  unfold ConvertsDtors replaceDtors
  rw [h]
  dsimp only
  cases hparse : array.parse with
  | none => simp
  | some fns =>
      constructor
      · rintro ⟨m', hcreate, -, hcalls⟩
        exact ⟨fns, m', rfl, hcreate, hcalls⟩
      · rintro ⟨_, m', ⟨⟩, hcreate, hcalls⟩
        exact ⟨m', hcreate, (ctors_createCtorDtorFunc hcreate).2, hcalls⟩

/-- **Conversion**: an accepted array becomes a function that calls just its
functions, where no entry is zero or without a function and the name is free. -/
theorem converts_iff (m : IRModule β) (name : Text) (array : CtorArray) :
    (CtorArray.find m.ctors = some (some array) →
      (m.ConvertsCtors name array ↔ array.Plain ∧ m.NameFree name)) ∧
    (CtorArray.find m.dtors = some (some array) →
      (m.ConvertsDtors name array ↔ array.Plain ∧ m.NameFree name)) :=
  ⟨convertsCtors_iff, convertsDtors_iff⟩

/-- A module without symbols that has this array of constructors and destructors. -/
def arrayModule (elems : List CtorElem) : IRModule Unit where
  symbols _ := none
  finite := by simp
  ctors := some ⟨true, .array elems⟩
  dtors := some ⟨true, .array elems⟩
  materializes := true

/-- A function and a cast one are converted. -/
theorem converts_two :
    (arrayModule [.struct 65535 (.function (ascii "f")), .struct 65535 (.cast (ascii "g"))]).ConvertsCtors
      (ascii "ctors_a")
      ⟨true, .array [.struct 65535 (.function (ascii "f")), .struct 65535 (.cast (ascii "g"))]⟩ := by
  apply ((converts_iff _ _ _).1 rfl).mpr
  constructor
  · show ∀ elem ∈ [CtorElem.struct 65535 (.function (ascii "f")), .struct 65535 (.cast (ascii "g"))],
      elem.function?.isSome = true
    decide
  · rintro g ⟨⟩

/-- An entry without a function is accepted, and then null is called; a zero entry
is accepted, and the conversion fails. -/
theorem null_is_called :
    (CtorArray.find (arrayModule [.struct 65535 .null]).ctors =
        some (some ⟨true, .array [.struct 65535 .null]⟩) ∧
      ∃ m', (arrayModule [.struct 65535 .null]).replaceCtors (ascii "ctors_a") = some m' ∧
        m'.Calls (ascii "ctors_a") [.null] ∧
        ¬ (arrayModule [.struct 65535 .null]).ConvertsCtors (ascii "ctors_a")
          ⟨true, .array [.struct 65535 .null]⟩) ∧
    CtorArray.find (arrayModule [.struct 65535 (.function (ascii "f")), .zero]).ctors =
      some (some ⟨true, .array [.struct 65535 (.function (ascii "f")), .zero]⟩) ∧
    ((arrayModule [.struct 65535 (.function (ascii "f")), .zero]).replaceCtors
      (ascii "ctors_a")).isNone = true := by
  refine ⟨⟨rfl, _, rfl, ⟨_, rfl, rfl⟩, ?_⟩, rfl, rfl⟩
  rintro ⟨_, ⟨⟩, -, ⟨_, ⟨⟩, hcalls⟩⟩
  cases hcalls

end IRModule
end Allmux
end AllvmTools
