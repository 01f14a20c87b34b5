import Mathlib.Data.List.Nodup
import Mathlib.Data.List.Perm.Basic
import Mathlib.Tactic.Common

/-!
# Hash tables with chains

A table is the list of its chains.  An element stands in the chain of the remainder
of its hash, and no two elements have one key.  What a table holds is then the list
of all its elements up to their order, which moving them to another table keeps.

* `Chained.find?_chain` — a key is found in its chain, if anywhere.
* `Chained.push`, `Chained.focus` — elements that come, change and go.
* `chained_rehash` — moving all elements to a table of another size.
-/

namespace AllvmTools
namespace Library
namespace ChainedTable

variable {α κ : Type*} {key : α → κ} {hash : κ → Nat}

/-! ## Lists with distinct keys -/

section Lookup

variable [DecidableEq κ]

/-- The element with a key. -/
def lookup (key : α → κ) (elements : List α) (k : κ) : Option α :=
  elements.find? fun a => decide (key a = k)

@[simp]
theorem lookup_nil (k : κ) : lookup key [] k = none :=
  rfl

theorem lookup_cons (a : α) (elements : List α) (k : κ) :
    lookup key (a :: elements) k = if key a = k then some a else lookup key elements k := by
  by_cases h : key a = k
  · simp [lookup, h]
  · simp [lookup, h]

theorem lookup_eq_none_iff {elements : List α} {k : κ} :
    lookup key elements k = none ↔ k ∉ elements.map key := by
  simp [lookup]

theorem lookup_eq_some_iff {elements : List α} (h : (elements.map key).Nodup) {k : κ} {a : α} :
    lookup key elements k = some a ↔ a ∈ elements ∧ key a = k := by
  constructor
  · intro hfind
    exact ⟨List.mem_of_find?_eq_some hfind, by simpa using List.find?_some hfind⟩
  · rintro ⟨ha, rfl⟩
    cases hfind : lookup key elements (key a) with
    | none => exact absurd (List.mem_map_of_mem ha) (lookup_eq_none_iff.mp hfind)
    | some b =>
        have hb : key b = key a := by simpa using List.find?_some hfind
        rw [List.inj_on_of_nodup_map h (List.mem_of_find?_eq_some hfind) ha hb]

/-- What is looked up after elements were dropped, and others changed under their keys. -/
theorem lookup_filterMap {change : α → Option α} (hkey : ∀ a b, change a = some b → key b = key a)
    {elements : List α} (h : (elements.map key).Nodup) (k : κ) :
    lookup key (elements.filterMap change) k = (lookup key elements k).bind change := by
  induction elements with
  | nil => rfl
  | cons a elements ih =>
      rw [List.map_cons, List.nodup_cons] at h
      rw [lookup_cons]
      by_cases hk : key a = k
      · have hnone : lookup key elements k = none := lookup_eq_none_iff.mpr (hk ▸ h.1)
        rw [if_pos hk, Option.bind_some]
        cases hchange : change a with
        | none => rw [List.filterMap_cons_none hchange, ih h.2, hnone, Option.bind_none]
        | some b => rw [List.filterMap_cons_some hchange, lookup_cons, hkey a b hchange, if_pos hk]
      · rw [if_neg hk, ← ih h.2]
        cases hchange : change a with
        | none => rw [List.filterMap_cons_none hchange]
        | some b => rw [List.filterMap_cons_some hchange, lookup_cons, hkey a b hchange, if_neg hk]

/-- What is looked up does not depend on the order. -/
theorem lookup_perm {elements elements' : List α} (hperm : elements.Perm elements')
    (h : (elements.map key).Nodup) : lookup key elements = lookup key elements' := by
  funext k
  have h' : (elements'.map key).Nodup := (hperm.map key).nodup_iff.mp h
  ext a
  rw [lookup_eq_some_iff h, lookup_eq_some_iff h', hperm.mem_iff]

end Lookup

/-! ## Chains -/

/-- Every element stands in the chain of its hash, and no two have one key. -/
structure Chained (key : α → κ) (hash : κ → Nat) (table : List (List α)) : Prop where
  placed : ∀ i chain, table[i]? = some chain → ∀ a ∈ chain, hash (key a) % table.length = i
  nodup : (table.flatten.map key).Nodup

/-- The chain in which a key is searched. -/
def chainOf (table : List (List α)) (i : Nat) : List α :=
  (table[i]?).getD []

theorem chained_replicate (n : Nat) : Chained key hash (List.replicate n []) := by
  constructor
  · intro i chain hchain a ha
    rw [List.getElem?_replicate] at hchain
    split at hchain
    · cases hchain
      cases ha
    · cases hchain
  · simp

/-- The elements of one chain, and the others. -/
theorem perm_modify {table : List (List α)} {i : Nat} (hi : i < table.length)
    (f : List α → List α) :
    (table.modify i f).flatten.Perm (f (chainOf table i) ++ (table.eraseIdx i).flatten) := by
  have hlength : i < (table.modify i f).length := by simpa using hi
  have hperm := (List.getElem_cons_eraseIdx_perm hlength).flatten.symm
  have herase : (table.modify i f).eraseIdx i = table.eraseIdx i := by
    rw [List.modify_eq_set_get f hi, List.eraseIdx_set_eq]
  rw [herase, List.flatten_cons, List.getElem_modify_eq] at hperm
  rwa [chainOf, List.getElem?_eq_getElem hi, Option.getD_some]

theorem perm_chainOf {table : List (List α)} {i : Nat} (hi : i < table.length) :
    table.flatten.Perm (chainOf table i ++ (table.eraseIdx i).flatten) := by
  have hperm := perm_modify hi id
  rwa [List.modify_id] at hperm

namespace Chained

variable {table : List (List α)}

theorem placed_chainOf (h : Chained key hash table) {i : Nat} {a : α}
    (ha : a ∈ chainOf table i) : hash (key a) % table.length = i := by
  unfold chainOf at ha
  cases hchain : table[i]? with
  | none =>
      rw [hchain] at ha
      cases ha
  | some chain =>
      rw [hchain] at ha
      exact h.placed i chain hchain a ha

/-- An element of the table stands in the chain of its hash. -/
theorem mem_chainOf (h : Chained key hash table) {a : α} (ha : a ∈ table.flatten) :
    a ∈ chainOf table (hash (key a) % table.length) := by
  obtain ⟨chain, hchain, ha⟩ := List.mem_flatten.mp ha
  obtain ⟨i, hi⟩ := List.mem_iff_getElem?.mp hchain
  rw [h.placed i chain hi a ha, chainOf, hi]
  exact ha

theorem mem_flatten_of_chainOf {i : Nat} {a : α} (ha : a ∈ chainOf table i) :
    a ∈ table.flatten := by
  unfold chainOf at ha
  cases hchain : table[i]? with
  | none =>
      rw [hchain] at ha
      cases ha
  | some chain =>
      rw [hchain] at ha
      exact List.mem_flatten.mpr ⟨chain, List.mem_of_getElem? hchain, ha⟩

theorem length_pos_of_mem {a : α} (ha : a ∈ table.flatten) : 0 < table.length := by
  obtain ⟨chain, hchain, -⟩ := List.mem_flatten.mp ha
  exact List.length_pos_of_mem hchain

/-- **Searching one chain**: a key is found in its chain just where the table has it. -/
theorem find?_chain [DecidableEq κ] (h : Chained key hash table) (k : κ) {p : α → Bool}
    (hp : ∀ a ∈ table.flatten, p a = true ↔ key a = k) :
    (chainOf table (hash k % table.length)).find? p = lookup key table.flatten k := by
  ext a
  rw [lookup_eq_some_iff h.nodup]
  constructor
  · intro hfind
    have ha := mem_flatten_of_chainOf (List.mem_of_find?_eq_some hfind)
    exact ⟨ha, (hp a ha).mp (List.find?_some hfind)⟩
  · rintro ⟨ha, hkey⟩
    have hchain := h.mem_chainOf ha
    rw [hkey] at hchain
    cases hfind : (chainOf table (hash k % table.length)).find? p with
    | none => exact absurd ((hp a ha).mpr hkey) (List.find?_eq_none.mp hfind a hchain)
    | some b =>
        have hb := mem_flatten_of_chainOf (List.mem_of_find?_eq_some hfind)
        have hsame := (hp b hb).mp (List.find?_some hfind)
        rw [List.inj_on_of_nodup_map h.nodup hb ha (hsame.trans hkey.symm)]

/-- Changing a chain, with elements of the same hash and distinct keys. -/
theorem modify (h : Chained key hash table) {i : Nat} {f : List α → List α}
    (hplaced : ∀ a ∈ f (chainOf table i), hash (key a) % table.length = i)
    (hnodup : ((table.modify i f).flatten.map key).Nodup) :
    Chained key hash (table.modify i f) := by
  refine ⟨fun j chain hchain a ha => ?_, hnodup⟩
  rw [List.length_modify]
  rw [List.getElem?_modify] at hchain
  by_cases hij : i = j
  · subst hij
    obtain ⟨old, hold, hnew⟩ := Option.map_eq_some_iff.mp hchain
    rw [if_pos rfl] at hnew
    apply hplaced
    rw [chainOf, hold, Option.getD_some, hnew]
    exact ha
  · obtain ⟨old, hold, hnew⟩ := Option.map_eq_some_iff.mp hchain
    rw [if_neg hij] at hnew
    subst hnew
    exact h.placed j old hold a ha

/-- A new element is put in front of its chain. -/
theorem push (h : Chained key hash table) (hsize : 0 < table.length) {a : α} {i : Nat}
    (hi : hash (key a) % table.length = i) (hfresh : key a ∉ table.flatten.map key) :
    Chained key hash (table.modify i (a :: ·)) ∧
      (table.modify i (a :: ·)).flatten.Perm (a :: table.flatten) := by
  have hlt : i < table.length := hi ▸ Nat.mod_lt _ hsize
  have hperm : (table.modify i (a :: ·)).flatten.Perm (a :: table.flatten) :=
    (perm_modify hlt _).trans ((perm_chainOf hlt).cons a).symm
  refine ⟨h.modify (fun b hb => ?_) ?_, hperm⟩
  · rcases List.mem_cons.mp hb with rfl | hb
    · exact hi
    · exact h.placed_chainOf hb
  · rw [(hperm.map key).nodup_iff, List.map_cons, List.nodup_cons]
    exact ⟨hfresh, h.nodup⟩

/-- **One element and the others**: it is unlinked, or another one with its key takes
its place. -/
theorem focus [DecidableEq κ] (h : Chained key hash table) {k : κ} {i : Nat}
    (hi : hash k % table.length = i) {p : α → Bool}
    (hp : ∀ a ∈ table.flatten, p a = true ↔ key a = k) {a : α}
    (ha : lookup key table.flatten k = some a) :
    ∃ others : List α, table.flatten.Perm (a :: others) ∧
      (Chained key hash (table.modify i (List.eraseP p)) ∧
        (table.modify i (List.eraseP p)).flatten.Perm others) ∧
      ∀ change : α → α, key (change a) = k →
        Chained key hash (table.modify i (List.replaceF fun b =>
          if p b then some (change b) else none)) ∧
        (table.modify i (List.replaceF fun b =>
          if p b then some (change b) else none)).flatten.Perm (change a :: others) := by
  obtain ⟨hmem, hkey⟩ := (lookup_eq_some_iff h.nodup).mp ha
  have hlt : i < table.length := hi ▸ Nat.mod_lt _ (length_pos_of_mem hmem)
  have hchain : a ∈ chainOf table i := by
    have hchain := h.mem_chainOf hmem
    rwa [hkey, hi] at hchain
  -- the first element of the chain with the key is the one with the key
  have hunique : ∀ b ∈ chainOf table i, p b = true → b = a := by
    intro b hb hpb
    have hb' := mem_flatten_of_chainOf hb
    exact List.inj_on_of_nodup_map h.nodup hb' hmem (((hp b hb').mp hpb).trans hkey.symm)
  have hpa : p a = true := (hp a hmem).mpr hkey
  obtain ⟨b, front, back, hfront, hpb, hsplit, herase⟩ := List.exists_of_eraseP hchain hpa
  obtain rfl : b = a := hunique b (by rw [hsplit]; simp) hpb
  have hall : table.flatten.Perm (b :: (front ++ back ++ (table.eraseIdx i).flatten)) := by
    refine (perm_chainOf hlt).trans ?_
    rw [hsplit, List.append_assoc, List.append_assoc, List.cons_append]
    exact List.perm_middle
  have hnodup := h.nodup
  rw [(hall.map key).nodup_iff, List.map_cons, List.nodup_cons] at hnodup
  refine ⟨front ++ back ++ (table.eraseIdx i).flatten, hall, ?_, fun change hchange => ?_⟩
  · have hperm := perm_modify hlt (List.eraseP p)
    rw [herase] at hperm
    refine ⟨h.modify (fun c hc => h.placed_chainOf (List.mem_of_mem_eraseP hc)) ?_, hperm⟩
    rw [(hperm.map key).nodup_iff]
    exact hnodup.2
  · have hreplace : (chainOf table i).replaceF
        (fun c => if p c then some (change c) else none) = front ++ change b :: back := by
      have hskip : ∀ l : List α, (∀ c ∈ l, ¬ p c = true) → (l ++ b :: back).replaceF
          (fun c => if p c then some (change c) else none) = l ++ change b :: back := by
        intro l hl
        induction l with
        | nil => simp [List.replaceF, hpb]
        | cons c l ih =>
            have hc := hl c List.mem_cons_self
            have hrest := ih fun d hd => hl d (List.mem_cons_of_mem c hd)
            simp only [List.cons_append, List.replaceF, if_neg hc, hrest]
      rw [hsplit]
      exact hskip front hfront
    have hperm : (table.modify i (List.replaceF fun c =>
        if p c then some (change c) else none)).flatten.Perm
          (change b :: (front ++ back ++ (table.eraseIdx i).flatten)) := by
      refine (perm_modify hlt _).trans ?_
      rw [hreplace, List.append_assoc, List.append_assoc, List.cons_append]
      exact List.perm_middle
    refine ⟨h.modify (fun c hc => ?_) ?_, hperm⟩
    · rw [hreplace] at hc
      rcases List.mem_append.mp hc with hc | hc
      · exact h.placed_chainOf (by rw [hsplit]; exact List.mem_append_left _ hc)
      · rcases List.mem_cons.mp hc with rfl | hc
        · rw [hchange, hi]
        · exact h.placed_chainOf (by rw [hsplit]; simp [hc])
    · rw [(hperm.map key).nodup_iff, List.map_cons, List.nodup_cons, hchange, ← hkey]
      exact hnodup

theorem map_filterMap_sublist {change : α → Option α}
    (hkey : ∀ a b, change a = some b → key b = key a) (elements : List α) :
    ((elements.filterMap change).map key).Sublist (elements.map key) := by
  induction elements with
  | nil => simp
  | cons a elements ih =>
      cases hchange : change a with
      | none =>
          rw [List.filterMap_cons_none hchange, List.map_cons]
          exact ih.cons _
      | some b =>
          rw [List.filterMap_cons_some hchange, List.map_cons, List.map_cons, hkey a b hchange]
          exact ih.cons_cons _

/-- Dropping elements from every chain, and changing the others under their keys. -/
theorem filterMap (h : Chained key hash table) {change : α → Option α}
    (hkey : ∀ a b, change a = some b → key b = key a) :
    Chained key hash (table.map (List.filterMap change)) ∧
      (table.map (List.filterMap change)).flatten = table.flatten.filterMap change := by
  have hflatten : (table.map (List.filterMap change)).flatten =
      table.flatten.filterMap change := List.filterMap_flatten.symm
  refine ⟨⟨fun i chain hchain b hb => ?_, ?_⟩, hflatten⟩
  · rw [List.getElem?_map] at hchain
    obtain ⟨old, hold, rfl⟩ := Option.map_eq_some_iff.mp hchain
    obtain ⟨a, ha, hchange⟩ := List.mem_filterMap.mp hb
    rw [List.length_map, hkey a b hchange]
    exact h.placed i old hold a ha
  · rw [hflatten]
    exact (map_filterMap_sublist hkey _).nodup h.nodup

end Chained

/-! ## Tables of another size -/

/-- Putting elements in front of their chains, one after the other. -/
def pushAll (table : List (List α)) (index : α → Nat) (elements : List α) : List (List α) :=
  elements.foldl (fun table a => table.modify (index a) (a :: ·)) table

theorem length_pushAll (table : List (List α)) (index : α → Nat) (elements : List α) :
    (pushAll table index elements).length = table.length := by
  induction elements generalizing table with
  | nil => rfl
  | cons a elements ih => exact (ih _).trans (List.length_modify (a :: ·) table (index a))

/-- Chain by chain is element by element. -/
theorem foldl_pushAll (table newTable : List (List α)) (index : α → Nat) :
    table.foldl (fun newTable chain => pushAll newTable index chain) newTable =
      pushAll newTable index table.flatten := by
  simp only [pushAll, List.foldl_flatten]

theorem chained_pushAll {table : List (List α)} (h : Chained key hash table)
    {index : α → Nat} {elements : List α}
    (hindex : ∀ a ∈ elements, index a = hash (key a) % table.length) (hsize : 0 < table.length)
    (hnodup : ((elements ++ table.flatten).map key).Nodup) :
    Chained key hash (pushAll table index elements) ∧
      (pushAll table index elements).flatten.Perm (elements ++ table.flatten) := by
  induction elements generalizing table with
  | nil => exact ⟨h, List.Perm.refl _⟩
  | cons a elements ih =>
      have hfresh : key a ∉ table.flatten.map key := by
        rw [List.cons_append, List.map_cons, List.nodup_cons, List.map_append] at hnodup
        exact fun hmem => hnodup.1 (List.mem_append_right _ hmem)
      obtain ⟨h', hperm⟩ := h.push hsize (hindex a List.mem_cons_self).symm hfresh
      have hmoved : (elements ++ (table.modify (index a) (a :: ·)).flatten).Perm
          (a :: elements ++ table.flatten) :=
        (hperm.append_left elements).trans List.perm_middle
      have hlength := List.length_modify (a :: ·) table (index a)
      obtain ⟨h'', hperm'⟩ := ih h'
        (fun b hb => by rw [hindex b (List.mem_cons_of_mem a hb), hlength])
        (by rwa [hlength]) (by rwa [(hmoved.map key).nodup_iff])
      exact ⟨h'', hperm'.trans hmoved⟩

/-- **Moving all elements** to an empty table of another size. -/
theorem chained_rehash {elements : List α} {size : Nat} {index : α → Nat}
    (hindex : ∀ a ∈ elements, index a = hash (key a) % size) (hsize : 0 < size)
    (hnodup : (elements.map key).Nodup) :
    Chained key hash (pushAll (List.replicate size []) index elements) ∧
      (pushAll (List.replicate size []) index elements).flatten.Perm elements := by
  have hempty : (List.replicate size ([] : List α)).flatten = [] := by simp
  have hpushed := chained_pushAll (chained_replicate size) (by simpa using hindex)
    (by simpa using hsize) (by rwa [hempty, List.append_nil])
  rwa [hempty, List.append_nil] at hpushed

end ChainedTable
end Library
end AllvmTools
