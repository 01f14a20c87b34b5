import AllvmTools.Library.Text

/-!
# Paths as byte strings

A path names a file through its components: empty components and `.` do not
move, so two spellings that differ only in these name the same file.  The
second part is the file-name operation of LLVM's path library on a POSIX host:
the last element met when iterating over a path.
-/

namespace AllvmTools
namespace Library
namespace Paths

open Text

def slash : UInt8 := 47
def dot : UInt8 := 46

/-! ## Components -/

/-- Split at every separator; the result is never empty. -/
def splitSlash : Text → List Text
  | [] => [[]]
  | b :: rest =>
      if b = slash then
        [] :: splitSlash rest
      else
        match splitSlash rest with
        | [] => [[b]]
        | part :: parts => (b :: part) :: parts

/-- The components that move: neither empty nor `.`. -/
def components (path : Text) : List Text :=
  (splitSlash path).filter fun part => part ≠ [] ∧ part ≠ [dot]

/-- A file as a process without symbolic links resolves it. -/
structure FilePath where
  absolute : Bool
  parts : List Text
deriving DecidableEq, Repr

/-- The file a path names. -/
def resolve (path : Text) : FilePath where
  absolute := path.head? == some slash
  parts := components path

theorem splitSlash_ne_nil (path : Text) : splitSlash path ≠ [] := by
  cases path with
  | nil => simp [splitSlash]
  | cons b rest =>
      unfold splitSlash
      split
      · simp
      · split <;> simp

/-- A separator splits the components. -/
theorem splitSlash_append_slash (a b : Text) :
    splitSlash (a ++ slash :: b) = splitSlash a ++ splitSlash b := by
  induction a with
  | nil => simp [splitSlash]
  | cons c a ih =>
      by_cases hc : c = slash
      · simp [splitSlash, hc, ih]
      · cases ha : splitSlash a with
        | nil => exact absurd ha (splitSlash_ne_nil a)
        | cons part parts => simp [splitSlash, hc, ih, ha]

/-- Text without a separator is one component. -/
theorem splitSlash_of_not_mem {a : Text} (h : slash ∉ a) : splitSlash a = [a] := by
  induction a with
  | nil => rfl
  | cons c a ih =>
      simp only [List.mem_cons, not_or] at h
      simp [splitSlash, Ne.symm h.1, ih h.2]

/-- Text without a separator joins the first part of what follows. -/
theorem splitSlash_append_of_not_mem {a : Text} (h : slash ∉ a) (b : Text) :
    ∃ part parts, splitSlash b = part :: parts ∧
      splitSlash (a ++ b) = (a ++ part) :: parts := by
  induction a with
  | nil =>
      cases hb : splitSlash b with
      | nil => exact absurd hb (splitSlash_ne_nil b)
      | cons part parts => exact ⟨part, parts, rfl, by simpa using hb⟩
  | cons c a ih =>
      simp only [List.mem_cons, not_or] at h
      obtain ⟨part, parts, hb, hab⟩ := ih h.2
      exact ⟨part, parts, hb, by simp [splitSlash, Ne.symm h.1, hab]⟩

theorem components_append_slash (a b : Text) :
    components (a ++ slash :: b) = components a ++ components b := by
  simp [components, splitSlash_append_slash]

/-- What ends a path without a separator ends its last component. -/
theorem splitSlash_append_end {ext : Text} (h : slash ∉ ext) (a : Text) :
    ∃ front part, splitSlash (a ++ ext) = front ++ [part ++ ext] := by
  induction a with
  | nil => exact ⟨[], [], splitSlash_of_not_mem h⟩
  | cons c a ih =>
      obtain ⟨front, part, hsplit⟩ := ih
      by_cases hc : c = slash
      · exact ⟨[] :: front, part, by simp [splitSlash, hc, hsplit]⟩
      · cases front with
        | nil => exact ⟨[], c :: part, by simp [splitSlash, hc, hsplit]⟩
        | cons first front => exact ⟨(c :: first) :: front, part, by simp [splitSlash, hc, hsplit]⟩

/-- A separator at the end adds no component. -/
theorem components_append_trailing_slash (a : Text) :
    components (a ++ [slash]) = components a := by
  rw [components_append_slash]
  simp [components, splitSlash]

/-- The parent directory reference. -/
def parentRef : Text := [dot, dot]

/-- `file` lies below `dir`: the components of `dir` followed by at least one
further component, none of which climbs back up. -/
def LiesUnder (dir file : Text) : Prop :=
  (resolve file).absolute = (resolve dir).absolute ∧
    ∃ rest, rest ≠ [] ∧ (resolve file).parts = (resolve dir).parts ++ rest ∧ parentRef ∉ rest

/-- `file` is an entry of `dir`: one further component, which does not climb. -/
def LiesDirectlyIn (dir file : Text) : Prop :=
  (resolve file).absolute = (resolve dir).absolute ∧
    ∃ name, name ≠ parentRef ∧ (resolve file).parts = (resolve dir).parts ++ [name]

/-! ## The file-name part -/

/-- Where the root directory of a path starts: `//net` is a root name, `//`
alone has no root directory. -/
def rootDirStart (path : Text) : Option Nat :=
  match path with
  | [a, b] => if a = slash ∧ b = slash then none else if a = slash then some 0 else none
  | a :: b :: c :: d :: rest =>
      if a = slash ∧ b = slash ∧ c ≠ slash then
        ((c :: d :: rest).findIdx? (· = slash)).map (· + 2)
      else if a = slash then some 0
      else none
  | a :: _ => if a = slash then some 0 else none
  | [] => none

/-- Where the last element of a path starts. -/
def filenamePos (path : Text) : Nat :=
  if path = [slash, slash] then 0
  else if path.getLast? = some slash then path.length - 1
  else
    match rfind slash path with
    | none => 0
    | some pos => if pos = 1 ∧ path.head? = some slash then 0 else pos + 1

/-- `sys::path::filename`: a trailing separator behind the root stands for `.`. -/
def filename (path : Text) : Text :=
  if path.getLast? = some slash ∧ (∀ root ∈ rootDirStart path, root + 1 < path.length) then
    [dot]
  else
    path.drop (filenamePos path)

/-- `sys::path::has_filename`. -/
def hasFilename (path : Text) : Bool :=
  !(filename path).isEmpty

/-- A file name holds no separator, unless it is the root directory or a root
name of the form `//net`. -/
theorem filename_cases (path : Text) :
    slash ∉ filename path ∨ filename path = [slash] ∨
      ∃ rest, filename path = slash :: slash :: rest ∧ slash ∉ rest := by
  unfold filename
  split
  · left
    decide
  · unfold filenamePos
    split
    · next hroot => exact Or.inr (Or.inr ⟨[], by simp [hroot], by simp⟩)
    · split
      · next hlast =>
          right; left
          obtain ⟨init, hinit⟩ := List.getLast?_eq_some_iff.mp hlast
          simp [hinit]
      · cases hfind : rfind slash path with
        | none =>
            left
            simpa using (rfind_eq_none_iff slash path).mp hfind
        | some pos =>
            obtain ⟨l, r, hsplit, hlen, hnot⟩ := rfind_eq_some_iff.mp hfind
            -- only a root name keeps its separators
            by_cases hnet : pos = 1 ∧ path.head? = some slash
            · right; right
              obtain ⟨hpos, hhead⟩ := hnet
              obtain ⟨b, rfl⟩ : ∃ b, l = [b] := List.length_eq_one_iff.mp (hlen.trans hpos)
              have hb : b = slash := by simpa [hsplit] using hhead
              exact ⟨r, by simp [hsplit, hpos, hb], hnot⟩
            · left
              have hdrop : path.drop (pos + 1) = r := by
                rw [hsplit, ← hlen]
                simp
              simpa only [hnet, if_false, hdrop] using hnot

example : filename (ascii "lib/musl/libc.bc") = ascii "libc.bc" := by decide
example : filename (ascii "lib/") = ascii "." := by decide

/-! ## The extension -/

/-- `sys::path::extension`: from the last dot of the file name on, dot included. -/
def extension (path : Text) : Text :=
  match rfind dot (filename path) with
  | none => []
  | some pos =>
      if filename path = [dot] ∨ filename path = [dot, dot] then []
      else (filename path).drop pos

/-- An extension starts with its dot. -/
theorem extension_cases (path : Text) :
    extension path = [] ∨ ∃ rest, extension path = dot :: rest := by
  unfold extension
  cases hfind : rfind dot (filename path) with
  | none => exact Or.inl rfl
  | some pos =>
      dsimp only
      split
      · exact Or.inl rfl
      · obtain ⟨l, r, hsplit, hlen, -⟩ := rfind_eq_some_iff.mp hfind
        exact Or.inr ⟨r, by rw [hsplit, ← hlen, List.drop_left]⟩

/-- Where a path ends with a name part, that part ends its file name. -/
theorem filename_append {front part : Text} (hne : part ≠ []) (hslash : slash ∉ part) :
    ∃ k ≤ front.length, filename (front ++ part) = front.drop k ++ part := by
  have hlast : ¬ (front ++ part).getLast? = some slash := by
    rw [List.getLast?_append_of_ne_nil _ hne]
    exact fun h => hslash (List.mem_of_getLast? h)
  have hpos : filenamePos (front ++ part) ≤ front.length := by
    unfold filenamePos
    rw [if_neg hlast]
    split
    · exact Nat.zero_le _
    · cases hfind : rfind slash (front ++ part) with
      | none => exact Nat.zero_le _
      | some pos =>
          obtain ⟨l, r, hsplit, hlen, -⟩ := rfind_eq_some_iff.mp hfind
          -- the last separator stands in front of the part
          have hlt : pos < front.length := by
            by_contra hge
            have hat : (front ++ part)[pos]? = some slash := by
              rw [hsplit, ← hlen, List.getElem?_append_right (Nat.le_refl _), Nat.sub_self]
              rfl
            rw [List.getElem?_append_right (by omega)] at hat
            exact hslash (List.mem_of_getElem? hat)
          dsimp only
          split
          · exact Nat.zero_le _
          · exact hlt
  refine ⟨filenamePos (front ++ part), hpos, ?_⟩
  unfold filename
  rw [if_neg fun h => hlast h.1, List.drop_append_of_le_length hpos]

/-- A path has the extension it ends with. -/
theorem extension_eq_iff {path e : Text} (hne : e ≠ []) (hdot : dot ∉ e) (hslash : slash ∉ e) :
    extension path = dot :: e ↔ (dot :: e) <:+ path := by
  constructor
  · intro h
    unfold extension at h
    cases hfind : rfind dot (filename path) with
    | none =>
        rw [hfind] at h
        cases h
    | some pos =>
        rw [hfind] at h
        dsimp only at h
        split at h
        · cases h
        · next hname =>
            have hsuffix : (dot :: e) <:+ filename path := h ▸ List.drop_suffix _ _
            refine hsuffix.trans ?_
            unfold filename at hname ⊢
            split at hname
            · exact absurd (Or.inl rfl) hname
            · next hlast =>
                rw [if_neg hlast]
                exact List.drop_suffix _ _
  · rintro ⟨front, rfl⟩
    have hpart : slash ∉ dot :: e := by
      intro hmem
      rcases List.mem_cons.mp hmem with h | h
      · exact absurd h (by decide)
      · exact hslash h
    obtain ⟨k, -, hname⟩ := @filename_append front (dot :: e) (List.cons_ne_nil _ _) hpart
    have hfind : rfind dot (filename (front ++ dot :: e)) = some (front.drop k).length :=
      rfind_eq_some_iff.mpr ⟨_, _, hname, rfl, hdot⟩
    have hlength : e.length ≠ 0 := fun h => hne (List.length_eq_zero_iff.mp h)
    unfold extension
    rw [hfind]
    dsimp only
    rw [if_neg, hname, List.drop_left]
    rw [hname]
    rintro (h | h)
    · have hlen := congrArg List.length h
      simp at hlen
      omega
    · -- two dots would end with a dot
      have hmem : dot ∈ e := by
        have hend := congrArg List.getLast? h
        rw [List.getLast?_append_of_ne_nil _ (List.cons_ne_nil _ _),
          List.getLast?_cons_of_ne_nil hne] at hend
        exact List.mem_of_getLast? hend
      exact hdot hmem

end Paths
end Library
end AllvmTools
