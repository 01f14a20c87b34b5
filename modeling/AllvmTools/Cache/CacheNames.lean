import AllvmTools.Library.Paths

/-!
# Cache identifiers and cache files

Both caches name a module `allexe:<CRC>-<name>` and compute the file from that
identifier in the same way: the cache directory, the identifier without its
prefix, and then everything from the last `.` of the WHOLE path replaced by the
cache's own extension.  `std::string::replace` at `npos` throws, and nothing
catches it.
-/

namespace AllvmTools
namespace Cache

open Library Library.Text Library.Paths

/-- The exceptions of the string library that leave these functions. -/
inductive StdException where
  | outOfRange
deriving DecidableEq, Repr

/-- A cache directory as the constructors keep it: closed by a separator unless
it is empty. -/
structure CacheDirectory where
  path : Text
  closed : path = [] ∨ path.getLast? = some slash

/-- `JITCache::JITCache` and `StaticBinaryCache::StaticBinaryCache`. -/
def CacheDirectory.ofString (dir : Text) : CacheDirectory :=
  if h : dir = [] ∨ dir.getLast? = some slash then
    ⟨dir, h⟩
  else
    ⟨dir ++ [slash], Or.inr (by simp)⟩

def allexePrefix : Text := ascii "allexe:"

/-- `-` between the CRC and the name. -/
def dash : UInt8 := 45

/-- `utohexstr`. -/
def utohexstr (crc : UInt32) : Text :=
  hexUpper crc.toNat

/-- Only the file-name portion of an entry name is used. -/
def namePart (name : Text) : Text :=
  if hasFilename name then filename name else name

/-- `JITCache::generateName`; the static cache ends with the same computation. -/
def generateName (name : Text) (crc : UInt32) : Text :=
  allexePrefix ++ (utohexstr crc ++ dash :: namePart name)

/-- `CacheName.replace(pos, CacheName.length() - pos, ext)` with
`pos = CacheName.rfind('.')`. -/
def replaceFromLastDot (ext cacheName : Text) : Except StdException Text :=
  match rfind dot cacheName with
  | none => .error .outOfRange
  | some pos => .ok (cacheName.take pos ++ ext)

/-- `getCacheFilename` of either cache; `none` is its `false`. -/
def getCacheFilename (ext : Text) (dir : CacheDirectory) (modID : Text) :
    Except StdException (Option Text) :=
  if modID.take allexePrefix.length = allexePrefix then
    (replaceFromLastDot ext (dir.path ++ modID.drop allexePrefix.length)).map some
  else
    .ok none

/-! ## The name part -/

theorem namePart_eq_filename (name : Text) : namePart name = filename name := by
  unfold namePart hasFilename
  cases hname : name with
  | nil => rfl
  | cons b rest =>
      split
      · rfl
      · next hempty =>
          -- only the empty path has an empty last element
          exfalso
          have hnil : filename (b :: rest) = [] := by simpa using hempty
          unfold filename at hnil
          split at hnil
          · simp at hnil
          · have hlen : (b :: rest).length ≤ filenamePos (b :: rest) := by
              simpa [List.drop_eq_nil_iff] using hnil
            unfold filenamePos at hlen
            split at hlen
            · simp at hlen
            · split at hlen
              · simp at hlen
              · next hlast =>
                  cases hfind : rfind slash (b :: rest) with
                  | none => simp [hfind] at hlen
                  | some pos =>
                      obtain ⟨l, r, hsplit, hpos, -⟩ := rfind_eq_some_iff.mp hfind
                      have hr : r ≠ [] := by
                        rintro rfl
                        simp [hsplit] at hlast
                      have hrpos : 0 < r.length := List.length_pos_iff.mpr hr
                      have hlength : (b :: rest).length = pos + 1 + r.length := by
                        rw [hsplit, List.length_append, List.length_cons, hpos]
                        omega
                      simp only [hfind] at hlen
                      split at hlen
                      · simp at hlen
                      · omega

/-! ## The computed file -/

theorem utohexstr_injective : Function.Injective utohexstr := by
  intro crc crc' h
  exact UInt32.toNat_inj.mp (hexUpper_injective h)

theorem slash_not_mem_utohexstr (crc : UInt32) : slash ∉ utohexstr crc :=
  not_mem_hexUpper _ (by decide)

theorem dash_not_mem_utohexstr (crc : UInt32) : dash ∉ utohexstr crc :=
  not_mem_hexUpper _ (by decide)

theorem dot_not_mem_utohexstr (crc : UInt32) : dot ∉ utohexstr crc :=
  not_mem_hexUpper _ (by decide)

/-- The identifiers generated here always carry the prefix. -/
theorem getCacheFilename_generateName (ext : Text) (dir : CacheDirectory)
    (name : Text) (crc : UInt32) :
    getCacheFilename ext dir (generateName name crc) =
      (replaceFromLastDot ext
        (dir.path ++ (utohexstr crc ++ dash :: namePart name))).map some := by
  unfold getCacheFilename generateName
  rw [List.take_left, List.drop_left, if_pos rfl]

/-- An extension in the name part is what gets replaced. -/
theorem getCacheFilename_of_extension {ext name stem suffix : Text} (dir : CacheDirectory)
    (crc : UInt32) (hname : namePart name = stem ++ dot :: suffix) (hsuffix : dot ∉ suffix) :
    getCacheFilename ext dir (generateName name crc) =
      .ok (some (dir.path ++ (utohexstr crc ++ dash :: (stem ++ ext)))) := by
  have hsplit : dir.path ++ (utohexstr crc ++ dash :: namePart name) =
      (dir.path ++ (utohexstr crc ++ dash :: stem)) ++ dot :: suffix := by
    simp [hname]
  have hfind : rfind dot (dir.path ++ (utohexstr crc ++ dash :: namePart name)) =
      some (dir.path ++ (utohexstr crc ++ dash :: stem)).length :=
    rfind_eq_some_iff.mpr ⟨_, suffix, hsplit, rfl, hsuffix⟩
  rw [getCacheFilename_generateName, replaceFromLastDot, hfind, hsplit]
  simp only [Except.map, List.take_left]
  simp

theorem dot_not_mem_cacheSubdir {name : Text} (crc : UInt32) (hname : dot ∉ namePart name) :
    dot ∉ utohexstr crc ++ dash :: namePart name := by
  simp only [List.mem_append, List.mem_cons, not_or]
  exact ⟨dot_not_mem_utohexstr crc, by decide, hname⟩

/-- Without an extension the last `.` of the directory is hit, and the computed
file depends on neither the CRC nor the name. -/
theorem getCacheFilename_of_dotted_directory {ext name l r : Text} (dir : CacheDirectory)
    (crc : UInt32) (hname : dot ∉ namePart name)
    (hdir : dir.path = l ++ dot :: r) (hr : dot ∉ r) :
    getCacheFilename ext dir (generateName name crc) = .ok (some (l ++ ext)) := by
  have hsplit : dir.path ++ (utohexstr crc ++ dash :: namePart name) =
      l ++ dot :: (r ++ (utohexstr crc ++ dash :: namePart name)) := by
    simp [hdir]
  have hnot : dot ∉ r ++ (utohexstr crc ++ dash :: namePart name) := by
    rw [List.mem_append, not_or]
    exact ⟨hr, dot_not_mem_cacheSubdir crc hname⟩
  have hfind : rfind dot (dir.path ++ (utohexstr crc ++ dash :: namePart name)) =
      some l.length :=
    rfind_eq_some_iff.mpr ⟨l, _, hsplit, rfl, hnot⟩
  rw [getCacheFilename_generateName, replaceFromLastDot, hfind, hsplit]
  simp [Except.map]

/-- Without any `.` the replacement position is `npos`. -/
theorem getCacheFilename_of_no_dot {ext name : Text} (dir : CacheDirectory)
    (crc : UInt32) (hname : dot ∉ namePart name) (hdir : dot ∉ dir.path) :
    getCacheFilename ext dir (generateName name crc) = .error .outOfRange := by
  have hnot : dot ∉ dir.path ++ (utohexstr crc ++ dash :: namePart name) := by
    rw [List.mem_append, not_or]
    exact ⟨hdir, dot_not_mem_cacheSubdir crc hname⟩
  rw [getCacheFilename_generateName, replaceFromLastDot, (rfind_eq_none_iff _ _).mpr hnot]
  rfl

/-! ## Where the file lies -/

/-- Closing the directory does not move it. -/
theorem resolve_ofString (dir : Text) :
    resolve (CacheDirectory.ofString dir).path = resolve dir := by
  unfold CacheDirectory.ofString
  split
  · rfl
  · next hopen =>
      simp only [not_or] at hopen
      cases dir with
      | nil => simp at hopen
      | cons b rest =>
          simp only [resolve, components_append_trailing_slash]
          rfl

/-- Below a closed directory the components are appended, and a path that does
not start with a separator keeps the directory's root. -/
theorem resolve_append (dir : CacheDirectory) {tail : Text} (htail : tail.head? ≠ some slash) :
    resolve (dir.path ++ tail) =
      ⟨(resolve dir.path).absolute, (resolve dir.path).parts ++ components tail⟩ := by
  rcases dir.closed with hnil | hlast
  · have habs : (tail.head? == some slash) = false := by simpa using htail
    simp [resolve, hnil, components, splitSlash, habs]
  · obtain ⟨init, hinit⟩ := List.getLast?_eq_some_iff.mp hlast
    have hhead : (dir.path ++ tail).head? = dir.path.head? := by
      rw [hinit]
      cases init <;> simp
    have hparts : components (dir.path ++ tail) = components dir.path ++ components tail := by
      rw [hinit, components_append_trailing_slash, List.append_assoc, List.singleton_append,
        components_append_slash]
    simp [resolve, hhead, hparts]

/-- The first component below the directory starts with the CRC. -/
theorem components_cacheSubdir (crc : UInt32) (rest : Text) :
    ∃ part parts, splitSlash rest = part :: parts ∧
      components (utohexstr crc ++ dash :: rest) =
        (utohexstr crc ++ dash :: part) ::
          parts.filter fun part => part ≠ [] ∧ part ≠ [dot] := by
  have hnot : slash ∉ utohexstr crc ++ [dash] := by
    simp only [List.mem_append, List.mem_singleton, not_or]
    exact ⟨slash_not_mem_utohexstr crc, by decide⟩
  obtain ⟨part, parts, hrest, hall⟩ := splitSlash_append_of_not_mem hnot rest
  refine ⟨part, parts, hrest, ?_⟩
  have happ : utohexstr crc ++ dash :: rest = (utohexstr crc ++ [dash]) ++ rest := by simp
  have hlen : 0 < (utohexstr crc).length := List.length_pos_iff.mpr (hexUpper_ne_nil _)
  have hne : utohexstr crc ++ [dash] ++ part ≠ [dot] := by
    intro h
    have := congrArg List.length h
    simp only [List.length_append, List.length_singleton] at this
    omega
  rw [components, happ, hall, List.filter_cons_of_pos (by simpa using hne)]
  simp

theorem head_cacheSubdir (crc : UInt32) (rest : Text) :
    (utohexstr crc ++ dash :: rest).head? ≠ some slash := by
  cases hhex : utohexstr crc with
  | nil => exact absurd hhex (hexUpper_ne_nil _)
  | cons b bs =>
      have hb : b ≠ slash := by
        rintro rfl
        exact slash_not_mem_utohexstr crc (by simp [hhex])
      simpa using hb

/-- Files computed for different CRCs are different files, whatever the names. -/
theorem crc_eq_of_resolve_eq (dir : CacheDirectory) {crc crc' : UInt32} {rest rest' : Text}
    (h : resolve (dir.path ++ (utohexstr crc ++ dash :: rest)) =
      resolve (dir.path ++ (utohexstr crc' ++ dash :: rest'))) :
    crc = crc' := by
  rw [resolve_append dir (head_cacheSubdir crc rest),
    resolve_append dir (head_cacheSubdir crc' rest')] at h
  obtain ⟨part, parts, -, hparts⟩ := components_cacheSubdir crc rest
  obtain ⟨part', parts', -, hparts'⟩ := components_cacheSubdir crc' rest'
  have htail := List.append_cancel_left (FilePath.mk.inj h).2
  rw [hparts, hparts'] at htail
  obtain ⟨hfirst, -⟩ := List.cons.inj htail
  have hhex := append_cons_inj_left (dash_not_mem_utohexstr crc)
    (dash_not_mem_utohexstr crc') hfirst
  exact utohexstr_injective hhex.1

/-- An entry without separators lies directly in the directory. -/
theorem resolve_cacheEntry (dir : CacheDirectory) (crc : UInt32) {rest : Text}
    (hrest : slash ∉ rest) :
    resolve (dir.path ++ (utohexstr crc ++ dash :: rest)) =
      ⟨(resolve dir.path).absolute,
        (resolve dir.path).parts ++ [utohexstr crc ++ dash :: rest]⟩ := by
  obtain ⟨part, parts, hsplit, hcomponents⟩ := components_cacheSubdir crc rest
  rw [splitSlash_of_not_mem hrest] at hsplit
  obtain ⟨rfl, rfl⟩ := List.cons.inj hsplit
  rw [resolve_append dir (head_cacheSubdir crc rest), hcomponents]
  rfl

/-- Entries directly in the directory are named by their CRC and their rest. -/
theorem cacheEntry_inj (dir : CacheDirectory) {crc crc' : UInt32} {rest rest' : Text}
    (hrest : slash ∉ rest) (hrest' : slash ∉ rest')
    (h : resolve (dir.path ++ (utohexstr crc ++ dash :: rest)) =
      resolve (dir.path ++ (utohexstr crc' ++ dash :: rest'))) :
    crc = crc' ∧ rest = rest' := by
  rw [resolve_cacheEntry dir crc hrest, resolve_cacheEntry dir crc' hrest'] at h
  have hentry := List.singleton_inj.mp (List.append_cancel_left (FilePath.mk.inj h).2)
  obtain ⟨hhex, htail⟩ := append_cons_inj_left (dash_not_mem_utohexstr crc)
    (dash_not_mem_utohexstr crc') hentry
  exact ⟨utohexstr_injective hhex, htail⟩

end Cache
end AllvmTools
