import AllvmTools.Archive.NameTable
import AllvmTools.Library.ChainedTable
import AllvmTools.Library.Machines
import AllvmTools.Library.PowersOfTwo

/-!
# The hash table of names

`zip_hash.c`: the table in which an archive finds the indices of its names, with
chains, a size that follows the number of names, and two indices for each name, one
as in the file and one as it is now.

* `calls_refine` — any run of calls is answered as by two partial functions.
* `valid_of_calls` — size, number and places of the entries after any run of calls.

Failing allocations and null pointers are left out.
-/

namespace AllvmTools
namespace Archive

open Library Library.ChainedTable Library.Machines Library.PowersOfTwo

/-! ## The table -/

/-- The codes of `zip_error_t` that the table sets; `existing` is `ZIP_ER_EXISTS`. -/
inductive HashError where
  | inval
  | existing
  | noent
deriving DecidableEq, Repr

/-- `HASH_MIN_SIZE`. -/
def hashMinSize : Nat := 256

/-- `HASH_MAX_SIZE`. -/
def hashMaxSize : Nat := 0x80000000

/-- `struct zip_hash_entry`; an index of -1 is `none`. -/
structure HashEntry where
  name : Text
  origIndex : Option Nat
  currentIndex : Option Nat
  hashValue : Nat
deriving DecidableEq, Repr

/-- `struct zip_hash`. -/
structure ZipHash where
  tableSize : Nat
  nentries : Nat
  table : List (List HashEntry)
deriving DecidableEq, Repr

/-- `hash_string`. -/
def hashString (name : Text) : Nat :=
  (cString name).foldl (fun value c => (value * 33 + c.toNat) % 2 ^ 32) 5381

/-- `strcmp (name, entry->name) == 0`. -/
def HashEntry.hasName (name : Text) (entry : HashEntry) : Bool :=
  cString entry.name == cString name

/-- The comparison of `_zip_hash_add` and `_zip_hash_delete`. -/
def HashEntry.isNamed (hashValue : Nat) (name : Text) (entry : HashEntry) : Bool :=
  entry.hashValue == hashValue && entry.hasName name

/-- The assignments at the end of `_zip_hash_add`. -/
def HashEntry.setIndex (index : Nat) (unchanged : Bool) (entry : HashEntry) : HashEntry :=
  { entry with
    origIndex := if unchanged then some index else entry.origIndex
    currentIndex := some index }

/-- `_zip_hash_new`. -/
def ZipHash.new : ZipHash :=
  ⟨0, 0, []⟩

/-- `hash_resize`. -/
def ZipHash.resize (hash : ZipHash) (newSize : Nat) : ZipHash :=
  if newSize = hash.tableSize then hash
  else
    { hash with
      tableSize := newSize
      table :=
        if 0 < hash.nentries then
          hash.table.foldl (fun newTable chain =>
            pushAll newTable (fun entry => entry.hashValue % newSize) chain)
            (List.replicate newSize [])
        else
          List.replicate newSize [] }

/-- `size_for_capacity`.  The quotient by .75 is rounded to a `double`, which changes
no part before the point that fits 32 bits. -/
def sizeForCapacity (capacity : Nat) : Nat :=
  let v := if 3 * uint32Max < 4 * capacity then uint32Max else 4 * capacity / 3
  if hashMaxSize < v then hashMaxSize
  else (smear ((v + (2 ^ 32 - 1)) % 2 ^ 32) [1, 2, 4, 8, 16] + 1) % 2 ^ 32

/-- `nentries < table_size * HASH_MIN_FILL`: a size is a power of two, so that the
product with the `double` .01 is as good as the exact one. -/
def belowMinFill (nentries tableSize : Nat) : Bool :=
  100 * nentries < tableSize

/-- `nentries > table_size * HASH_MAX_FILL`. -/
def aboveMaxFill (nentries tableSize : Nat) : Bool :=
  3 * tableSize < 4 * nentries

/-- `_zip_hash_add`. -/
def ZipHash.add (hash : ZipHash) (name : Text) (index : Nat) (unchanged : Bool) :
    Except HashError Unit × ZipHash :=
  if int64Max < index then (.error .inval, hash)
  else
    let hash := if hash.tableSize = 0 then hash.resize hashMinSize else hash
    let hashValue := hashString name
    let tableIndex := hashValue % hash.tableSize
    match (chainOf hash.table tableIndex).find? (HashEntry.isNamed hashValue name) with
    | some entry =>
        if (unchanged && entry.origIndex.isSome) || entry.currentIndex.isSome then
          (.error .existing, hash)
        else
          (.ok (), { hash with
            table := hash.table.modify tableIndex (List.replaceF fun entry =>
              if entry.isNamed hashValue name then some (entry.setIndex index unchanged)
              else none) })
    | none =>
        let entry := HashEntry.setIndex index unchanged ⟨name, none, none, hashValue⟩
        let hash := { hash with
          nentries := hash.nentries + 1
          table := hash.table.modify tableIndex (entry :: ·) }
        if aboveMaxFill hash.nentries hash.tableSize && hash.tableSize < hashMaxSize then
          (.ok (), hash.resize (hash.tableSize * 2))
        else
          (.ok (), hash)

/-- `_zip_hash_delete`. -/
def ZipHash.delete (hash : ZipHash) (name : Text) : Except HashError Unit × ZipHash :=
  if 0 < hash.nentries then
    let hashValue := hashString name
    let index := hashValue % hash.tableSize
    match (chainOf hash.table index).find? (HashEntry.isNamed hashValue name) with
    | some entry =>
        if entry.origIndex = none then
          let hash := { hash with
            nentries := hash.nentries - 1
            table := hash.table.modify index (List.eraseP (HashEntry.isNamed hashValue name)) }
          if belowMinFill hash.nentries hash.tableSize && hashMinSize < hash.tableSize then
            (.ok (), hash.resize (hash.tableSize / 2))
          else
            (.ok (), hash)
        else
          (.ok (), { hash with
            table := hash.table.modify index (List.replaceF fun entry =>
              if entry.isNamed hashValue name then some { entry with currentIndex := none }
              else none) })
    | none => (.error .noent, hash)
  else (.error .noent, hash)

/-- `_zip_hash_lookup`; `unchanged` is `ZIP_FL_UNCHANGED`. -/
def ZipHash.lookup (hash : ZipHash) (name : Text) (unchanged : Bool) : Except HashError Nat :=
  if 0 < hash.nentries then
    match (chainOf hash.table (hashString name % hash.tableSize)).find?
        (HashEntry.hasName name) with
    | some entry =>
        match if unchanged then entry.origIndex else entry.currentIndex with
        | some index => .ok index
        | none => .error .noent
    | none => .error .noent
  else .error .noent

/-- `_zip_hash_reserve_capacity`. -/
def ZipHash.reserveCapacity (hash : ZipHash) (capacity : Nat) : ZipHash :=
  if capacity = 0 then hash
  else
    let newSize := sizeForCapacity capacity
    if newSize ≤ hash.tableSize then hash else hash.resize newSize

/-- The `while` loop of `_zip_hash_revert`. -/
def shrunkSize (nentries newSize : Nat) : Nat :=
  if belowMinFill nentries newSize && hashMinSize < newSize then
    shrunkSize nentries (newSize / 2)
  else
    newSize
termination_by newSize
decreasing_by
  rename_i h
  simp only [belowMinFill, Bool.and_eq_true, decide_eq_true_eq] at h
  omega

/-- What `_zip_hash_revert` leaves of an entry. -/
def HashEntry.reverted (entry : HashEntry) : Option HashEntry :=
  if entry.origIndex = none then none else some { entry with currentIndex := entry.origIndex }

/-- `_zip_hash_revert`. -/
def ZipHash.revert (hash : ZipHash) : ZipHash :=
  let hash := { hash with
    nentries := hash.nentries - hash.table.flatten.countP (·.origIndex = none)
    table := hash.table.map (List.filterMap HashEntry.reverted) }
  if belowMinFill hash.nentries hash.tableSize && hashMinSize < hash.tableSize then
    hash.resize (shrunkSize hash.nentries (hash.tableSize / 2))
  else
    hash

/-! ## What the table is for -/

/-- Two partial functions from names to indices: as in the file, and as of now. -/
@[ext]
structure NameIndex where
  orig : Text → Option Nat
  current : Text → Option Nat

namespace NameIndex

/-- No name at all. -/
def empty : NameIndex :=
  ⟨fun _ => none, fun _ => none⟩

/-- A name is added if it is not in use; one that was deleted can come back. -/
def add (names : NameIndex) (name : Text) (index : Nat) (unchanged : Bool) :
    Except HashError Unit × NameIndex :=
  if int64Max < index then (.error .inval, names)
  else if (unchanged && (names.orig name).isSome) || (names.current name).isSome then
    (.error .existing, names)
  else
    (.ok (), ⟨if unchanged then Function.update names.orig name (some index) else names.orig,
      Function.update names.current name (some index)⟩)

/-- A name of the file can be deleted again and again. -/
def delete (names : NameIndex) (name : Text) : Except HashError Unit × NameIndex :=
  if names.orig name = none ∧ names.current name = none then (.error .noent, names)
  else (.ok (), { names with current := Function.update names.current name none })

/-- The index of a name. -/
def lookup (names : NameIndex) (name : Text) (unchanged : Bool) : Except HashError Nat :=
  (if unchanged then names.orig name else names.current name).elim (.error .noent) .ok

/-- The names of the file. -/
def revert (names : NameIndex) : NameIndex :=
  { names with current := names.orig }

end NameIndex

/-! ## Calls -/

/-- A call of the operations on a table. -/
inductive HashCall where
  | add (name : Text) (index : Nat) (unchanged : Bool)
  | delete (name : Text)
  | lookup (name : Text) (unchanged : Bool)
  | reserveCapacity (capacity : Nat)
  | revert
deriving DecidableEq, Repr

/-- The answer of a call, which is an index for `_zip_hash_lookup`, and the table after it. -/
def ZipHash.call (hash : ZipHash) : HashCall → Except HashError (Option Nat) × ZipHash
  | .add name index unchanged =>
      (((hash.add name index unchanged).1).map fun _ => none, (hash.add name index unchanged).2)
  | .delete name => (((hash.delete name).1).map fun _ => none, (hash.delete name).2)
  | .lookup name unchanged => ((hash.lookup name unchanged).map some, hash)
  | .reserveCapacity capacity => (.ok none, hash.reserveCapacity capacity)
  | .revert => (.ok none, hash.revert)

/-- The same calls on the two functions, to which a name is known up to its first
terminator. -/
def NameIndex.call (names : NameIndex) : HashCall → Except HashError (Option Nat) × NameIndex
  | .add name index unchanged =>
      (((names.add (cString name) index unchanged).1).map fun _ => none,
        (names.add (cString name) index unchanged).2)
  | .delete name =>
      (((names.delete (cString name)).1).map fun _ => none, (names.delete (cString name)).2)
  | .lookup name unchanged => ((names.lookup (cString name) unchanged).map some, names)
  | .reserveCapacity _ => (.ok none, names)
  | .revert => (.ok none, names.revert)

/-! ## Tables that are in order -/

/-- The string of an entry, under which it is found. -/
def HashEntry.key (entry : HashEntry) : Text :=
  cString entry.name

/-- A size is a power of two of 32 bits, or there is no table yet. -/
def IsTableSize (size : Nat) : Prop :=
  size = 0 ∨ ∃ k ≤ 31, size = 2 ^ k

/-- The entries stand in their chains, no two with one name, and each has an index. -/
structure ZipHash.Ordered (hash : ZipHash) : Prop where
  size : IsTableSize hash.tableSize
  length : hash.table.length = hash.tableSize
  chained : Chained HashEntry.key hashString hash.table
  hashValues : ∀ entry ∈ hash.table.flatten, entry.hashValue = hashString entry.key
  live : ∀ entry ∈ hash.table.flatten, entry.origIndex ≠ none ∨ entry.currentIndex ≠ none
  nentries : hash.nentries = hash.table.flatten.length

/-- The invariant: the size follows the number of entries as well. -/
structure ZipHash.Valid (hash : ZipHash) : Prop extends hash.Ordered where
  fill : aboveMaxFill hash.nentries hash.tableSize = false ∨ hash.tableSize = hashMaxSize

/-- The indices that a list of entries holds. -/
def indexOf (entries : List HashEntry) : NameIndex :=
  ⟨fun k => (Library.ChainedTable.lookup HashEntry.key entries k).bind HashEntry.origIndex,
    fun k => (Library.ChainedTable.lookup HashEntry.key entries k).bind HashEntry.currentIndex⟩

/-- The indices that a table holds. -/
def ZipHash.index (hash : ZipHash) : NameIndex :=
  indexOf hash.table.flatten

theorem cString_cString (name : Text) : cString (cString name) = cString name := by
  exact List.takeWhile_idem

theorem hashString_cString (name : Text) : hashString (cString name) = hashString name := by
  rw [hashString, cString_cString, hashString]

theorem indexOf_perm {entries entries' : List HashEntry} (hperm : entries.Perm entries')
    (h : (entries.map HashEntry.key).Nodup) : indexOf entries = indexOf entries' := by
  rw [indexOf, indexOf, lookup_perm hperm h]

theorem indexOf_cons (entry : HashEntry) (entries : List HashEntry) :
    indexOf (entry :: entries) =
      ⟨Function.update (indexOf entries).orig entry.key entry.origIndex,
        Function.update (indexOf entries).current entry.key entry.currentIndex⟩ := by
  ext k : 2
  · simp only [indexOf, lookup_cons, Function.update_apply, eq_comm (a := k)]
    split <;> rfl
  · simp only [indexOf, lookup_cons, Function.update_apply, eq_comm (a := k)]
    split <;> rfl

theorem IsTableSize.le_max {size : Nat} (h : IsTableSize size) : size ≤ hashMaxSize := by
  rcases h with rfl | ⟨k, hk, rfl⟩
  · exact Nat.zero_le _
  · exact Nat.pow_le_pow_right Nat.two_pos hk

theorem IsTableSize.double {size : Nat} (h : IsTableSize size) (hlt : size < hashMaxSize) :
    IsTableSize (size * 2) := by
  rcases h with rfl | ⟨k, hk, rfl⟩
  · exact Or.inl rfl
  · refine Or.inr ⟨k + 1, ?_, (Nat.pow_succ ..).symm⟩
    have hne : k ≠ 31 := by
      rintro rfl
      simp [hashMaxSize] at hlt
    omega

/-- A size above the least one is halved without a remainder. -/
theorem IsTableSize.half {size : Nat} (h : IsTableSize size) (hlt : hashMinSize < size) :
    IsTableSize (size / 2) ∧ size = 2 * (size / 2) := by
  rcases h with rfl | ⟨k, hk, rfl⟩
  · simp [hashMinSize] at hlt
  · cases k with
    | zero => simp [hashMinSize] at hlt
    | succ k =>
        rw [Nat.pow_succ, Nat.mul_div_cancel _ Nat.two_pos, Nat.mul_comm]
        exact ⟨Or.inr ⟨k, by omega, rfl⟩, rfl⟩

theorem isTableSize_sizeForCapacity {capacity : Nat} (h : capacity ≠ 0) :
    IsTableSize (sizeForCapacity capacity) ∧
      min hashMaxSize (4 * capacity / 3) ≤ sizeForCapacity capacity := by
  unfold sizeForCapacity
  dsimp only
  generalize hv : (if 3 * uint32Max < 4 * capacity then uint32Max else 4 * capacity / 3) = v
  have hpos : 0 < v := by
    rw [← hv]
    split
    · decide
    · omega
  have hle : min hashMaxSize (4 * capacity / 3) ≤ v := by
    rw [← hv]
    split
    · exact (Nat.min_le_left _ _).trans (by decide)
    · exact Nat.min_le_right _ _
  by_cases hmax : hashMaxSize < v
  · rw [if_pos hmax]
    exact ⟨Or.inr ⟨31, Nat.le_refl _, rfl⟩, Nat.min_le_left _ _⟩
  · rw [if_neg hmax]
    have hle31 : v ≤ 2 ^ 31 := Nat.le_of_not_lt hmax
    have hpred : (v + (2 ^ 32 - 1)) % 2 ^ 32 = v - 1 := by omega
    have hbound := two_pow_size_pred_le hpos hle31
    have hround := le_two_pow_size_pred v
    rw [hpred, succ_smear_pred hpos (by omega), Nat.mod_eq_of_lt (by omega)]
    refine ⟨Or.inr ⟨(v - 1).size, Nat.size_le.mpr (by omega), rfl⟩, by omega⟩

section Operations

variable {hash : ZipHash}

/-- A table that holds a list of entries in any order. -/
theorem ordered_of_perm {entries : List HashEntry} (hsize : IsTableSize hash.tableSize)
    (hlength : hash.table.length = hash.tableSize)
    (hchained : Chained HashEntry.key hashString hash.table)
    (hperm : hash.table.flatten.Perm entries)
    (hvalues : ∀ entry ∈ entries, entry.hashValue = hashString entry.key)
    (hlive : ∀ entry ∈ entries, entry.origIndex ≠ none ∨ entry.currentIndex ≠ none)
    (hnentries : hash.nentries = entries.length) :
    hash.Ordered ∧ hash.index = indexOf entries :=
  ⟨⟨hsize, hlength, hchained, fun e he => hvalues e (hperm.mem_iff.mp he),
    fun e he => hlive e (hperm.mem_iff.mp he), hnentries.trans hperm.length_eq.symm⟩,
    indexOf_perm hperm hchained.nodup⟩

namespace ZipHash.Ordered

/-- Resizing moves the entries to their chains in the new table. -/
theorem resize (h : hash.Ordered) {newSize : Nat} (hsize : IsTableSize newSize)
    (hpos : 0 < newSize) :
    (hash.resize newSize).Ordered ∧ (hash.resize newSize).index = hash.index ∧
      (hash.resize newSize).tableSize = newSize ∧
      (hash.resize newSize).nentries = hash.nentries := by
  unfold ZipHash.resize
  by_cases hsame : newSize = hash.tableSize
  · rw [if_pos hsame]
    exact ⟨h, rfl, hsame.symm, rfl⟩
  · rw [if_neg hsame, foldl_pushAll]
    by_cases hentries : 0 < hash.nentries
    · rw [if_pos hentries]
      obtain ⟨hchained, hperm⟩ := @chained_rehash _ _ HashEntry.key hashString
        hash.table.flatten newSize (fun entry => entry.hashValue % newSize)
        (fun e he => by rw [h.hashValues e he]) hpos h.chained.nodup
      obtain ⟨hordered, hindex⟩ := @ordered_of_perm ⟨newSize, hash.nentries, _⟩ _ hsize
        ((length_pushAll ..).trans List.length_replicate) hchained hperm h.hashValues h.live
        h.nentries
      exact ⟨hordered, hindex, rfl, rfl⟩
    · rw [if_neg hentries]
      have hnone : hash.table.flatten = [] := List.eq_nil_of_length_eq_zero (by
        rw [← h.nentries]
        omega)
      obtain ⟨hordered, hindex⟩ := @ordered_of_perm
        ⟨newSize, hash.nentries, List.replicate newSize []⟩ hash.table.flatten hsize (by simp)
        (chained_replicate newSize) (by simp [hnone]) h.hashValues h.live h.nentries
      exact ⟨hordered, hindex, rfl, rfl⟩

/-- The entry that a name is looked up to. -/
theorem lookup_eq (h : hash.Ordered) (name : Text) (p : HashEntry → Bool)
    (hp : ∀ entry ∈ hash.table.flatten, p entry = true ↔ entry.key = cString name) :
    (chainOf hash.table (hashString name % hash.tableSize)).find? p =
      Library.ChainedTable.lookup HashEntry.key hash.table.flatten (cString name) := by
  rw [← h.length, ← hashString_cString]
  exact h.chained.find?_chain (cString name) hp

theorem hasName_iff (name : Text) (entry : HashEntry) :
    entry.hasName name = true ↔ entry.key = cString name := by
  simp [HashEntry.hasName, HashEntry.key]

/-- Comparing the hash values first makes no difference. -/
theorem isNamed_iff (h : hash.Ordered) (name : Text) :
    ∀ entry ∈ hash.table.flatten,
      entry.isNamed (hashString name) name = true ↔ entry.key = cString name := by
  intro entry hentry
  rw [HashEntry.isNamed, Bool.and_eq_true, hasName_iff, beq_iff_eq, h.hashValues entry hentry]
  constructor
  · exact And.right
  · intro hkey
    exact ⟨by rw [hkey, hashString_cString], hkey⟩

/-- **Looking a name up.** -/
theorem lookup_refines (h : hash.Ordered) (name : Text) (unchanged : Bool) :
    hash.lookup name unchanged = hash.index.lookup (cString name) unchanged := by
  unfold ZipHash.lookup NameIndex.lookup
  rw [h.lookup_eq name _ fun entry _ => hasName_iff name entry]
  simp only [ZipHash.index, indexOf]
  by_cases hentries : 0 < hash.nentries
  · rw [if_pos hentries]
    cases Library.ChainedTable.lookup HashEntry.key hash.table.flatten (cString name) with
    | none => cases unchanged <;> rfl
    | some entry =>
        obtain ⟨name, orig, current, value⟩ := entry
        cases unchanged with
        | true => cases orig <;> rfl
        | false => cases current <;> rfl
  · have hnone : hash.table.flatten = [] := List.eq_nil_of_length_eq_zero (by
      rw [← h.nentries]
      omega)
    rw [if_neg hentries, hnone]
    cases unchanged <;> rfl

/-- A name is known just where an entry has it. -/
theorem lookup_eq_none_iff (h : hash.Ordered) (k : Text) :
    Library.ChainedTable.lookup HashEntry.key hash.table.flatten k = none ↔
      hash.index.orig k = none ∧ hash.index.current k = none := by
  constructor
  · intro hnone
    simp [ZipHash.index, indexOf, hnone]
  · rintro ⟨horig, hcurrent⟩
    cases hfind : Library.ChainedTable.lookup HashEntry.key hash.table.flatten k with
    | none => rfl
    | some entry =>
        simp only [ZipHash.index, indexOf, hfind, Option.bind_some] at horig hcurrent
        have hmem := ((lookup_eq_some_iff h.chained.nodup).mp hfind).1
        rcases h.live entry hmem with hne | hne
        · exact absurd horig hne
        · exact absurd hcurrent hne

/-- An entry among the others: it can go, or another one with its name takes its place. -/
theorem focus (h : hash.Ordered) {name : Text} {entry : HashEntry}
    (hentry : Library.ChainedTable.lookup HashEntry.key hash.table.flatten (cString name) =
      some entry) :
    ∃ others : List HashEntry, entry.key = cString name ∧
      cString name ∉ others.map HashEntry.key ∧ hash.index = indexOf (entry :: others) ∧
      (∀ hash', hash' = ZipHash.mk hash.tableSize (hash.nentries - 1)
          (hash.table.modify (hashString name % hash.tableSize)
            (List.eraseP (HashEntry.isNamed (hashString name) name))) →
        hash'.Ordered ∧ hash'.index = indexOf others) ∧
      ∀ change : HashEntry → HashEntry, (change entry).key = entry.key →
        (change entry).hashValue = entry.hashValue →
        (change entry).origIndex ≠ none ∨ (change entry).currentIndex ≠ none →
        ∀ hash', hash' = ZipHash.mk hash.tableSize hash.nentries
            (hash.table.modify (hashString name % hash.tableSize) (List.replaceF fun entry =>
              if entry.isNamed (hashString name) name then some (change entry) else none)) →
          hash'.Ordered ∧ hash'.index = indexOf (change entry :: others) := by
  obtain ⟨hmem, hkey⟩ := (lookup_eq_some_iff h.chained.nodup).mp hentry
  have hi : hashString (cString name) % hash.table.length =
      hashString name % hash.tableSize := by
    rw [h.length, hashString_cString]
  obtain ⟨others, hperm, ⟨herased, hpermErased⟩, hchange⟩ :=
    h.chained.focus hi (h.isNamed_iff name) hentry
  have hnodup := h.chained.nodup
  rw [(hperm.map HashEntry.key).nodup_iff, List.map_cons, List.nodup_cons] at hnodup
  have hlength := h.nentries.trans hperm.length_eq
  have hothers : ∀ e ∈ others, e ∈ hash.table.flatten := fun e he =>
    hperm.mem_iff.mpr (List.mem_cons_of_mem entry he)
  refine ⟨others, hkey, hkey ▸ hnodup.1, indexOf_perm hperm h.chained.nodup, ?_, ?_⟩
  · rintro _ rfl
    exact ordered_of_perm h.size (by rw [List.length_modify, h.length]) herased hpermErased
      (fun e he => h.hashValues e (hothers e he)) (fun e he => h.live e (hothers e he))
      (by simp [hlength])
  · rintro change hkey' hvalue hlive _ rfl
    obtain ⟨hchained, hpermChanged⟩ := hchange change (hkey'.trans hkey)
    refine ordered_of_perm h.size (by rw [List.length_modify, h.length]) hchained hpermChanged
      (fun e he => ?_) (fun e he => ?_) (by simpa using hlength)
    · rcases List.mem_cons.mp he with rfl | he
      · rw [hvalue, hkey', h.hashValues entry hmem]
      · exact h.hashValues e (hothers e he)
    · rcases List.mem_cons.mp he with rfl | he
      · exact hlive
      · exact h.live e (hothers e he)

/-- An entry for a new name. -/
theorem pushed (h : hash.Ordered) (hpos : 0 < hash.tableSize) {entry : HashEntry}
    (hvalue : entry.hashValue = hashString entry.key)
    (hfresh : Library.ChainedTable.lookup HashEntry.key hash.table.flatten entry.key = none)
    (hlive : entry.origIndex ≠ none ∨ entry.currentIndex ≠ none) {hash' : ZipHash}
    (hhash' : hash' = ZipHash.mk hash.tableSize (hash.nentries + 1)
      (hash.table.modify (entry.hashValue % hash.tableSize) (entry :: ·))) :
    hash'.Ordered ∧ hash'.index = indexOf (entry :: hash.table.flatten) := by
  subst hhash'
  obtain ⟨hchained, hperm⟩ := h.chained.push (by rwa [h.length])
    (show hashString entry.key % hash.table.length = entry.hashValue % hash.tableSize by
      rw [hvalue, h.length])
    (Library.ChainedTable.lookup_eq_none_iff.mp hfresh)
  refine ordered_of_perm h.size (by rw [List.length_modify, h.length]) hchained hperm
    (fun e he => ?_) (fun e he => ?_) (by simp [h.nentries])
  · rcases List.mem_cons.mp he with rfl | he
    · exact hvalue
    · exact h.hashValues e he
  · rcases List.mem_cons.mp he with rfl | he
    · exact hlive
    · exact h.live e he

end ZipHash.Ordered

/-- The answer of a call and the table after it, against those of the two functions. -/
structure Agrees (model : Except HashError Unit × NameIndex)
    (result : Except HashError Unit × ZipHash) : Prop where
  answer : result.1 = model.1
  index : result.2.index = model.2
  valid : result.2.Valid

namespace ZipHash.Valid

/-- A table of another size, if it is not too full. -/
theorem resize (h : hash.Ordered) {newSize : Nat} (hsize : IsTableSize newSize)
    (hpos : 0 < newSize)
    (hfill : aboveMaxFill hash.nentries newSize = false ∨ newSize = hashMaxSize) :
    (hash.resize newSize).Valid ∧ (hash.resize newSize).index = hash.index ∧
      (hash.resize newSize).tableSize = newSize := by
  obtain ⟨hordered, hindex, htableSize, hnentries⟩ := h.resize hsize hpos
  exact ⟨⟨hordered, by rwa [hnentries, htableSize]⟩, hindex, htableSize⟩

/-- The first name makes a table. -/
theorem allocated (h : hash.Valid) {hash' : ZipHash}
    (hhash' : hash' = if hash.tableSize = 0 then hash.resize hashMinSize else hash) :
    hash'.Valid ∧ hash'.index = hash.index ∧ 0 < hash'.tableSize := by
  by_cases hzero : hash.tableSize = 0
  · rw [if_pos hzero] at hhash'
    subst hhash'
    have hnone : hash.nentries = 0 := by
      have hfill := h.fill
      simp only [aboveMaxFill, hzero, hashMaxSize, decide_eq_false_iff_not] at hfill
      omega
    obtain ⟨hvalid, hindex, hsize⟩ := Valid.resize h.toOrdered
      (show IsTableSize hashMinSize from Or.inr ⟨8, by omega, rfl⟩) (by decide)
      (Or.inl (by rw [hnone]; decide))
    exact ⟨hvalid, hindex, by rw [hsize]; decide⟩
  · rw [if_neg hzero] at hhash'
    subst hhash'
    exact ⟨h, rfl, Nat.pos_of_ne_zero hzero⟩

/-- A name that no entry has. -/
theorem add_new (h : hash.Valid) (hpos : 0 < hash.tableSize) {name : Text} (index : Nat)
    (unchanged : Bool)
    (hfind : Library.ChainedTable.lookup HashEntry.key hash.table.flatten (cString name) = none)
    {hash' : ZipHash} (hhash' : hash' = ZipHash.mk hash.tableSize (hash.nentries + 1)
      (hash.table.modify (hashString name % hash.tableSize)
        (HashEntry.setIndex index unchanged ⟨name, none, none, hashString name⟩ :: ·))) :
    Agrees (.ok (), ⟨if unchanged then Function.update hash.index.orig (cString name) (some index)
        else hash.index.orig, Function.update hash.index.current (cString name) (some index)⟩)
      (if aboveMaxFill hash'.nentries hash'.tableSize && hash'.tableSize < hashMaxSize then
        (.ok (), hash'.resize (hash'.tableSize * 2)) else (.ok (), hash')) := by
  obtain ⟨hordered, hindex⟩ := h.toOrdered.pushed hpos
    (show (HashEntry.setIndex index unchanged ⟨name, none, none, hashString name⟩).hashValue =
      hashString (cString name) from (hashString_cString name).symm) hfind (Or.inr (by
        simp [HashEntry.setIndex])) hhash'
  have horig := (h.toOrdered.lookup_eq_none_iff _).mp hfind
  have hmodel : hash'.index = ⟨if unchanged then
      Function.update hash.index.orig (cString name) (some index) else hash.index.orig,
      Function.update hash.index.current (cString name) (some index)⟩ := by
    rw [hindex, indexOf_cons]
    cases unchanged with
    | true => rfl
    | false =>
        have hkept : Function.update hash.index.orig (cString name) none = hash.index.orig := by
          rw [← horig.1, Function.update_eq_self]
        ext k : 2
        · exact congrFun hkept k
        · rfl
  have hsize' : hash'.tableSize = hash.tableSize := by rw [hhash']
  have hnentries' : hash'.nentries = hash.nentries + 1 := by rw [hhash']
  have hmax := hordered.size.le_max
  have hfill := h.fill
  simp only [aboveMaxFill, decide_eq_false_iff_not] at hfill
  cases hfull : aboveMaxFill hash'.nentries hash'.tableSize &&
      decide (hash'.tableSize < hashMaxSize) with
  | true =>
      rw [if_pos rfl]
      obtain ⟨-, hlt⟩ := (Bool.and_eq_true _ _).mp hfull
      have hlt' := of_decide_eq_true hlt
      obtain ⟨hvalid, hindex', -⟩ := Valid.resize hordered (hordered.size.double hlt')
        (by omega) (Or.inl (by
          simp only [aboveMaxFill, decide_eq_false_iff_not]
          omega))
      exact ⟨rfl, hindex'.trans hmodel, hvalid⟩
  | false =>
      rw [if_neg Bool.false_ne_true]
      refine ⟨rfl, hmodel, hordered, ?_⟩
      rcases (Bool.and_eq_false_iff).mp hfull with hroom | hlarge
      · exact Or.inl hroom
      · exact Or.inr (Nat.le_antisymm hmax (Nat.le_of_not_lt (of_decide_eq_false hlarge)))

/-- A name of the file that was deleted, or a name that is known under no index. -/
theorem add_again (h : hash.Valid) {name : Text} (index : Nat) (unchanged : Bool)
    {entry : HashEntry} (hentry : Library.ChainedTable.lookup HashEntry.key hash.table.flatten
      (cString name) = some entry) {hash' : ZipHash}
    (hhash' : hash' = ZipHash.mk hash.tableSize hash.nentries
      (hash.table.modify (hashString name % hash.tableSize) (List.replaceF fun entry =>
        if entry.isNamed (hashString name) name then some (entry.setIndex index unchanged)
        else none))) :
    Agrees (.ok (), ⟨if unchanged then Function.update hash.index.orig (cString name) (some index)
        else hash.index.orig, Function.update hash.index.current (cString name) (some index)⟩)
      (.ok (), hash') := by
  obtain ⟨others, hkey, -, hindex, -, hchange⟩ := h.toOrdered.focus hentry
  obtain ⟨hordered, hindex'⟩ := hchange (HashEntry.setIndex index unchanged) rfl rfl
    (Or.inr (by simp [HashEntry.setIndex])) hash' hhash'
  refine ⟨rfl, ?_, hordered, ?_⟩
  · rw [hindex', hindex, indexOf_cons, indexOf_cons, ← hkey]
    cases unchanged with
    | true => simp [HashEntry.setIndex, HashEntry.key]
    | false => simp [HashEntry.setIndex, HashEntry.key]
  · rw [hhash']
    exact h.fill

theorem add_agrees (h : hash.Valid) (name : Text) (index : Nat) (unchanged : Bool) :
    Agrees (hash.index.add (cString name) index unchanged) (hash.add name index unchanged) := by
  unfold ZipHash.add NameIndex.add
  by_cases hrange : int64Max < index
  · rw [if_pos hrange, if_pos hrange]
    exact ⟨rfl, rfl, h⟩
  · rw [if_neg hrange, if_neg hrange]
    dsimp only
    generalize hfirst : (if hash.tableSize = 0 then hash.resize hashMinSize else hash) = hash'
    obtain ⟨hvalid, hindex, hpos⟩ := h.allocated hfirst.symm
    rw [← hindex, hvalid.lookup_eq name _ (hvalid.isNamed_iff name)]
    cases hfind : Library.ChainedTable.lookup HashEntry.key hash'.table.flatten (cString name) with
    | none =>
        obtain ⟨horig, hcurrent⟩ := (hvalid.lookup_eq_none_iff _).mp hfind
        rw [horig, hcurrent, if_neg (by simp)]
        exact hvalid.add_new hpos index unchanged hfind rfl
    | some entry =>
        have hfound : hash'.index.orig (cString name) = entry.origIndex ∧
            hash'.index.current (cString name) = entry.currentIndex := by
          simp [ZipHash.index, indexOf, hfind]
        rw [hfound.1, hfound.2]
        by_cases htaken : (unchanged && entry.origIndex.isSome || entry.currentIndex.isSome) = true
        · rw [if_pos htaken]
          simp only [if_pos htaken]
          exact ⟨rfl, rfl, hvalid⟩
        · rw [if_neg htaken]
          simp only [if_neg htaken]
          exact hvalid.add_again index unchanged hfind rfl

/-- A name that was added since the table was filled. -/
theorem delete_added (h : hash.Valid) {name : Text} {entry : HashEntry}
    (hentry : Library.ChainedTable.lookup HashEntry.key hash.table.flatten (cString name) =
      some entry) (horig : entry.origIndex = none) {hash' : ZipHash}
    (hhash' : hash' = ZipHash.mk hash.tableSize (hash.nentries - 1)
      (hash.table.modify (hashString name % hash.tableSize)
        (List.eraseP (HashEntry.isNamed (hashString name) name)))) :
    Agrees (.ok (), { hash.index with
        current := Function.update hash.index.current (cString name) none })
      (if belowMinFill hash'.nentries hash'.tableSize && hashMinSize < hash'.tableSize then
        (.ok (), hash'.resize (hash'.tableSize / 2)) else (.ok (), hash')) := by
  obtain ⟨others, hkey, hfresh, hindex, herased, -⟩ := h.toOrdered.focus hentry
  obtain ⟨hordered, hindex'⟩ := herased hash' hhash'
  have hgone := Library.ChainedTable.lookup_eq_none_iff.mpr hfresh
  have hmodel : hash'.index = { hash.index with
      current := Function.update hash.index.current (cString name) none } := by
    have hnone : (indexOf others).orig (cString name) = none ∧
        (indexOf others).current (cString name) = none := by
      simp [indexOf, hgone]
    rw [hindex', hindex, indexOf_cons, hkey, horig]
    ext k : 2
    · show (indexOf others).orig k = Function.update (indexOf others).orig (cString name) none k
      rw [← hnone.1, Function.update_eq_self]
    · show (indexOf others).current k = Function.update (Function.update (indexOf others).current
        (cString name) entry.currentIndex) (cString name) none k
      rw [Function.update_idem, ← hnone.2, Function.update_eq_self]
  have hsize' : hash'.tableSize = hash.tableSize := by rw [hhash']
  have hnentries' : hash'.nentries = hash.nentries - 1 := by rw [hhash']
  cases hsparse : belowMinFill hash'.nentries hash'.tableSize &&
      decide (hashMinSize < hash'.tableSize) with
  | true =>
      rw [if_pos rfl]
      obtain ⟨hbelow, hlt⟩ := (Bool.and_eq_true _ _).mp hsparse
      have hlt' := of_decide_eq_true hlt
      have hbelow' := of_decide_eq_true hbelow
      obtain ⟨hhalf, heven⟩ := hordered.size.half hlt'
      obtain ⟨hvalid, hindex'', -⟩ := Valid.resize hordered hhalf (by omega) (Or.inl (by
        simp only [aboveMaxFill, decide_eq_false_iff_not]
        omega))
      exact ⟨rfl, hindex''.trans hmodel, hvalid⟩
  | false =>
      rw [if_neg Bool.false_ne_true]
      refine ⟨rfl, hmodel, hordered, ?_⟩
      have hfill := h.fill
      simp only [aboveMaxFill, decide_eq_false_iff_not] at hfill ⊢
      rcases hfill with hfill | hfill
      · exact Or.inl (by omega)
      · exact Or.inr (hsize'.trans hfill)

/-- A name of the file. -/
theorem delete_original (h : hash.Valid) {name : Text} {entry : HashEntry}
    (hentry : Library.ChainedTable.lookup HashEntry.key hash.table.flatten (cString name) =
      some entry) (horig : entry.origIndex ≠ none) {hash' : ZipHash}
    (hhash' : hash' = ZipHash.mk hash.tableSize hash.nentries
      (hash.table.modify (hashString name % hash.tableSize) (List.replaceF fun entry =>
        if entry.isNamed (hashString name) name then some { entry with currentIndex := none }
        else none))) :
    Agrees (.ok (), { hash.index with
      current := Function.update hash.index.current (cString name) none }) (.ok (), hash') := by
  obtain ⟨others, hkey, -, hindex, -, hchange⟩ := h.toOrdered.focus hentry
  obtain ⟨hordered, hindex'⟩ := hchange (fun entry => { entry with currentIndex := none }) rfl rfl
    (Or.inl horig) hash' hhash'
  refine ⟨rfl, ?_, hordered, ?_⟩
  · rw [hindex', hindex, indexOf_cons, indexOf_cons, ← hkey]
    simp [HashEntry.key]
  · rw [hhash']
    exact h.fill

theorem delete_agrees (h : hash.Valid) (name : Text) :
    Agrees (hash.index.delete (cString name)) (hash.delete name) := by
  unfold ZipHash.delete NameIndex.delete
  dsimp only
  rw [h.lookup_eq name _ (h.isNamed_iff name)]
  cases hfind : Library.ChainedTable.lookup HashEntry.key hash.table.flatten (cString name) with
  | none =>
      rw [if_pos ((h.lookup_eq_none_iff _).mp hfind), ite_self]
      exact ⟨rfl, rfl, h⟩
  | some entry =>
      have hpos : 0 < hash.nentries := by
        rw [h.nentries]
        exact List.length_pos_of_mem ((lookup_eq_some_iff h.chained.nodup).mp hfind).1
      have hknown : ¬ (hash.index.orig (cString name) = none ∧
          hash.index.current (cString name) = none) := by
        rw [← h.lookup_eq_none_iff, hfind]
        exact Option.some_ne_none entry
      rw [if_neg hknown, if_pos hpos]
      dsimp only
      by_cases horig : entry.origIndex = none
      · rw [if_pos horig]
        exact h.delete_added hfind horig rfl
      · rw [if_neg horig]
        exact h.delete_original hfind horig rfl

theorem reserveCapacity_valid (h : hash.Valid) (capacity : Nat) :
    (hash.reserveCapacity capacity).Valid ∧
      (hash.reserveCapacity capacity).index = hash.index := by
  unfold ZipHash.reserveCapacity
  by_cases hzero : capacity = 0
  · rw [if_pos hzero]
    exact ⟨h, rfl⟩
  · rw [if_neg hzero]
    dsimp only
    by_cases hlarge : sizeForCapacity capacity ≤ hash.tableSize
    · rw [if_pos hlarge]
      exact ⟨h, rfl⟩
    · rw [if_neg hlarge]
      have hsize := (isTableSize_sizeForCapacity hzero).1
      have hmax := hsize.le_max
      have hfill := h.fill
      simp only [aboveMaxFill, decide_eq_false_iff_not] at hfill
      obtain ⟨hvalid, hindex, -⟩ := Valid.resize h.toOrdered hsize (by omega) (Or.inl (by
        simp only [aboveMaxFill, decide_eq_false_iff_not]
        omega))
      exact ⟨hvalid, hindex⟩

/-- Halving goes on as long as the table is too empty, and never too far. -/
theorem shrunkSize_spec {nentries newSize : Nat} (hsize : IsTableSize newSize)
    (hfill : 100 * nentries < 2 * newSize) :
    IsTableSize (shrunkSize nentries newSize) ∧
      100 * nentries < 2 * shrunkSize nentries newSize := by
  induction newSize using Nat.strong_induction_on with
  | _ newSize ih =>
      rw [shrunkSize]
      split
      · next hsparse =>
          obtain ⟨hbelow, hlt⟩ := (Bool.and_eq_true _ _).mp hsparse
          have hlt' := of_decide_eq_true hlt
          have hbelow' := of_decide_eq_true hbelow
          obtain ⟨hhalf, heven⟩ := hsize.half hlt'
          exact ih (newSize / 2) (by omega) hhalf (by omega)
      · exact ⟨hsize, hfill⟩

theorem length_filterMap_reverted (entries : List HashEntry) :
    (entries.filterMap HashEntry.reverted).length =
      entries.length - entries.countP (·.origIndex = none) := by
  have hle := List.countP_le_length (p := fun e : HashEntry => decide (e.origIndex = none))
    (l := entries)
  suffices h : (entries.filterMap HashEntry.reverted).length +
      entries.countP (·.origIndex = none) = entries.length by omega
  induction entries with
  | nil => rfl
  | cons entry entries ih =>
      have ih' := ih List.countP_le_length
      by_cases horig : entry.origIndex = none
      · simp [HashEntry.reverted, horig] at ih' ⊢
        omega
      · simp [HashEntry.reverted, horig] at ih' ⊢
        omega

theorem key_reverted (entry entry' : HashEntry) (h : entry.reverted = some entry') :
    entry'.key = entry.key := by
  unfold HashEntry.reverted at h
  split at h
  · cases h
  · cases h
    rfl

/-- The indices that `_zip_hash_revert` leaves. -/
theorem indexOf_reverted {entries : List HashEntry} (h : (entries.map HashEntry.key).Nodup) :
    indexOf (entries.filterMap HashEntry.reverted) = (indexOf entries).revert := by
  unfold indexOf NameIndex.revert
  ext k : 2
  · dsimp only
    rw [lookup_filterMap key_reverted h k]
    cases Library.ChainedTable.lookup HashEntry.key entries k with
    | none => rfl
    | some entry =>
        by_cases horig : entry.origIndex = none
        · simp [HashEntry.reverted, horig]
        · simp [HashEntry.reverted, horig]
  · dsimp only
    rw [lookup_filterMap key_reverted h k]
    cases Library.ChainedTable.lookup HashEntry.key entries k with
    | none => rfl
    | some entry =>
        by_cases horig : entry.origIndex = none
        · simp [HashEntry.reverted, horig]
        · simp [HashEntry.reverted, horig]

/-- A table that is too empty is made smaller. -/
theorem shrunk (h : hash.Valid) {hash' : ZipHash}
    (hhash' : hash' = if belowMinFill hash.nentries hash.tableSize &&
        hashMinSize < hash.tableSize then
      hash.resize (shrunkSize hash.nentries (hash.tableSize / 2)) else hash) :
    hash'.Valid ∧ hash'.index = hash.index := by
  subst hhash'
  split
  · next hsparse =>
      obtain ⟨hbelow, hlt⟩ := (Bool.and_eq_true _ _).mp hsparse
      have hlt' := of_decide_eq_true hlt
      have hbelow' := of_decide_eq_true hbelow
      obtain ⟨hhalf, heven⟩ := h.size.half hlt'
      obtain ⟨hsize, hfill⟩ := @shrunkSize_spec hash.nentries _ hhalf (by omega)
      obtain ⟨hvalid, hindex, -⟩ := Valid.resize h.toOrdered hsize (by omega) (Or.inl (by
        simp only [aboveMaxFill, decide_eq_false_iff_not]
        omega))
      exact ⟨hvalid, hindex⟩
  · exact ⟨h, rfl⟩

/-- The entries of the names that the file has, with the indices there. -/
theorem reverted (h : hash.Valid) {hash' : ZipHash}
    (hhash' : hash' = ZipHash.mk hash.tableSize
      (hash.nentries - hash.table.flatten.countP (·.origIndex = none))
      (hash.table.map (List.filterMap HashEntry.reverted))) :
    hash'.Valid ∧ hash'.index = hash.index.revert := by
  subst hhash'
  obtain ⟨hchained, hflatten⟩ := h.chained.filterMap key_reverted
  have hkept : ∀ entry ∈ hash.table.flatten.filterMap HashEntry.reverted,
      ∃ old ∈ hash.table.flatten, old.hashValue = entry.hashValue ∧ old.key = entry.key ∧
        entry.origIndex ≠ none := by
    intro entry hentry
    obtain ⟨old, hold, hreverted⟩ := List.mem_filterMap.mp hentry
    unfold HashEntry.reverted at hreverted
    split at hreverted
    · cases hreverted
    · next horig =>
        cases hreverted
        exact ⟨old, hold, rfl, rfl, horig⟩
  obtain ⟨hordered, hindex⟩ := @ordered_of_perm ⟨hash.tableSize,
      hash.nentries - hash.table.flatten.countP (·.origIndex = none),
      hash.table.map (List.filterMap HashEntry.reverted)⟩ _ h.size
    (by rw [List.length_map, h.length]) hchained (List.Perm.of_eq hflatten) (fun e he => by
      obtain ⟨old, hold, hvalue, hkey, -⟩ := hkept e he
      rw [← hvalue, ← hkey, h.hashValues old hold])
    (fun e he => by
      obtain ⟨old, -, -, -, horig⟩ := hkept e he
      exact Or.inl horig)
    (by rw [length_filterMap_reverted, ← h.nentries])
  refine ⟨⟨hordered, ?_⟩, hindex.trans (indexOf_reverted h.chained.nodup)⟩
  have hfill := h.fill
  simp only [aboveMaxFill, decide_eq_false_iff_not] at hfill ⊢
  rcases hfill with hfill | hfill
  · exact Or.inl (by omega)
  · exact Or.inr hfill

theorem revert_valid (h : hash.Valid) :
    hash.revert.Valid ∧ hash.revert.index = hash.index.revert := by
  obtain ⟨hreverted, hindex⟩ := h.reverted rfl
  obtain ⟨hshrunk, hindex'⟩ := hreverted.shrunk rfl
  exact ⟨hshrunk, hindex'.trans hindex⟩

end ZipHash.Valid

end Operations

/-! ## Runs -/

theorem valid_new : ZipHash.new.Valid := by
  refine ⟨⟨Or.inl rfl, rfl, ⟨?_, ?_⟩, ?_, ?_, rfl⟩, Or.inl rfl⟩
  · intro i chain hchain
    cases hchain
  · exact List.nodup_nil
  · intro entry hentry
    cases hentry
  · intro entry hentry
    cases hentry

/-- One call, whichever it is. -/
theorem call_refines (hash : ZipHash) (call : HashCall) (h : hash.Valid) :
    Refines ZipHash.Valid ZipHash.index ZipHash.call NameIndex.call hash call := by
  cases call with
  | add name index unchanged =>
      have hadd := h.add_agrees name index unchanged
      refine ⟨?_, hadd.index, hadd.valid⟩
      rw [ZipHash.call, NameIndex.call, hadd.answer]
  | delete name =>
      have hdelete := h.delete_agrees name
      refine ⟨?_, hdelete.index, hdelete.valid⟩
      rw [ZipHash.call, NameIndex.call, hdelete.answer]
  | lookup name unchanged =>
      refine ⟨?_, rfl, h⟩
      rw [ZipHash.call, NameIndex.call, h.lookup_refines]
  | reserveCapacity capacity =>
      obtain ⟨hvalid, hindex⟩ := h.reserveCapacity_valid capacity
      exact ⟨rfl, hindex, hvalid⟩
  | revert =>
      obtain ⟨hvalid, hindex⟩ := h.revert_valid
      exact ⟨rfl, hindex, hvalid⟩

/-- Runs from the new table. -/
theorem answers_new (calls : List HashCall) :
    (answers ZipHash.call .new calls).1 = (answers NameIndex.call .empty calls).1 ∧
      (answers ZipHash.call .new calls).2.index = (answers NameIndex.call .empty calls).2 ∧
      (answers ZipHash.call .new calls).2.Valid :=
  answers_refine call_refines valid_new calls

/-- **The table of names** answers every run of calls as the two functions do. -/
theorem calls_refine (calls : List HashCall) :
    (answers ZipHash.call .new calls).1 = (answers NameIndex.call .empty calls).1 ∧
      (answers ZipHash.call .new calls).2.index = (answers NameIndex.call .empty calls).2 := by
  obtain ⟨hanswers, hindex, -⟩ := answers_new calls
  exact ⟨hanswers, hindex⟩

/-- **The size of the table**: after every run of calls the table is in order, and its
size is a power of two that follows the number of names. -/
theorem valid_of_calls (calls : List HashCall) : (answers ZipHash.call .new calls).2.Valid :=
  (answers_new calls).2.2

end Archive
end AllvmTools
