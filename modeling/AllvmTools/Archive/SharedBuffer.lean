import AllvmTools.Archive.CentralDirectory

/-!
# Directories that are read from a buffer

`_zip_read_cdir` hands `_zip_dirent_read` one buffer that holds the whole directory,
where that is read in already: each record is read on from where the last one ended.
From the file, every part of a record gets a buffer of its own.

* `looksAt_readFixed`, `looksAt_readVariable` — no part of a record is read beyond.
* `direntReadBuffer_eq` — a record is read on from anywhere as it is by itself.
* `readEntries_alike` — a directory is read alike from its buffer and from the file.
-/

namespace AllvmTools
namespace Archive

open Library Library.Text Library.Files
open Library.Leaving.Program Library.Reader

/-! ## The parts of a record -/

/-- The width of a number that a local header lacks. -/
def centralWidth (isLocal : Bool) (width : Nat) : Nat :=
  if isLocal then 0 else width

theorem looksAt_numberIf (isLocal : Bool) (width : Nat) :
    LooksAt (numberIf (!isLocal) width) (centralWidth isLocal width) := by
  cases isLocal with
  | true => exact looksAt_pure 0
  | false => exact looksAt_number width

theorem looksAt_readFixed (isLocal : Bool) : LooksAt (readFixed isLocal) (fixedSize isLocal) := by
  have hsum : fixedSize isLocal =
      4 + (0 + (centralWidth isLocal 2 + (2 + (2 + (2 + (2 + (2 + (4 + (4 + (4 + (2 + (2 +
        (centralWidth isLocal 2 + (centralWidth isLocal 2 + (centralWidth isLocal 2 +
        (centralWidth isLocal 4 + (centralWidth isLocal 4 + (0 + (0 + 0))))))))))))))))))) := by
    cases isLocal <;> simp [fixedSize, centralWidth, lentrySize, cdEntrySize]
  rw [hsum]
  unfold readFixed
  exact (looksAt_bytes 4).bind fun magic => (looksAt_ensure _ _).bind fun _ =>
    (looksAt_numberIf _ 2).bind fun versionMadeby => (looksAt_number 2).bind fun versionNeeded =>
    (looksAt_number 2).bind fun bitflags => (looksAt_number 2).bind fun compMethod =>
    (looksAt_number 2).bind fun dostime => (looksAt_number 2).bind fun dosdate =>
    (looksAt_number 4).bind fun crc => (looksAt_number 4).bind fun compSize =>
    (looksAt_number 4).bind fun uncompSize => (looksAt_number 2).bind fun filenameLen =>
    (looksAt_number 2).bind fun efLen => (looksAt_numberIf _ 2).bind fun commentLen =>
    (looksAt_numberIf _ 2).bind fun diskNumber => (looksAt_numberIf _ 2).bind fun intAttrib =>
    (looksAt_numberIf _ 4).bind fun extAttrib => (looksAt_numberIf _ 4).bind fun offset =>
    looksAt_isOk.bind fun ok => (looksAt_ensure _ _).bind fun _ => looksAt_pure _

theorem looksAt_readData (length : Nat) : LooksAt (readData length) length := by
  unfold readData
  refine (looksAt_bytes length).bind (k := 0) fun found => ?_
  cases found with
  | none => exact looksAt_leave _ 0
  | some bytes => exact looksAt_pure bytes

theorem looksAt_checkUtf8 (bitflags : Nat) (s : ZipString) : LooksAt (checkUtf8 bitflags s) 0 := by
  unfold checkUtf8
  split
  · split
    · exact looksAt_leave _ 0
    · exact looksAt_pure _
  · exact looksAt_pure s

theorem looksAt_readString (change : Bytes → Bytes) (bitflags length : Nat) :
    LooksAt (readString change bitflags length) length := by
  unfold readString
  split
  · next hlength =>
    rw [hlength]
    exact looksAt_pure none
  · exact (looksAt_readData length).bind fun raw =>
      (looksAt_checkUtf8 bitflags _).bind fun s => looksAt_pure (some s)

theorem looksAt_readExtraFields (isLocal : Bool) (efLen : Nat) :
    LooksAt (readExtraFields isLocal efLen) efLen := by
  unfold readExtraFields
  split
  · next hlength =>
    rw [hlength]
    exact looksAt_pure []
  · refine (looksAt_readData efLen).bind (k := 0) fun ef => ?_
    split
    · exact looksAt_leave _ 0
    · exact looksAt_pure _

theorem looksAt_readVariable (isLocal : Bool) (f : FixedFields) :
    LooksAt (readVariable isLocal f) f.variableSize := by
  have hsum : f.variableSize = f.filenameLen + (f.efLen + (f.commentLen + 0)) := by
    unfold FixedFields.variableSize
    omega
  rw [hsum]
  exact (looksAt_readString blankNul f.bitflags f.filenameLen).bind fun filename =>
    (looksAt_readExtraFields isLocal f.efLen).bind fun efs =>
    (looksAt_readString id f.bitflags f.commentLen).bind fun comment => looksAt_pure _

/-! ## Records -/

/-- `_zip_dirent_read` with a buffer, which may go on behind the record. -/
def direntReadBuffer (calendar : Calendar) (isLocal : Bool) :
    Reader ZipError (ReadDirent × Nat) := do
  let size := fixedSize isLocal
  let ahead ← left
  ensure (decide (size ≤ ahead)) .nozip
  let f ← readFixed isLocal
  let ahead ← left
  ensure (decide (f.variableSize ≤ ahead)) .incons
  let (filename, efs, comment) ← readVariable isLocal f
  let ok ← isOk
  match (f.withVariable calendar isLocal filename efs comment).finish isLocal ok with
  | .error e => leave e
  | .ok de => return (de, size + f.variableSize)

/-- Where too little is ahead, it is left. -/
theorem ensure_of_lt {α : Type} {n ahead : Nat} (h : ahead < n) (e : ZipError)
    (f : Unit → Reader ZipError α) (c : ByteCursor) :
    (ensure (decide (n ≤ ahead)) e >>= f) c = (.error e, c) := by
  apply bind_of_error
  unfold ensure
  rw [if_neg (by simpa using h)]
  rfl

theorem ensure_of_le {α : Type} {n ahead : Nat} (h : n ≤ ahead) (e : ZipError)
    (f : Unit → Reader ZipError α) (c : ByteCursor) :
    (ensure (decide (n ≤ ahead)) e >>= f) c = f () c := by
  apply bind_of_ok
  unfold ensure
  rw [if_pos (by simpa using h)]
  rfl

/-- A record is read on from anywhere in a buffer as it is by itself, with the same
errors; the buffer then stands right behind it. -/
theorem direntReadBuffer_eq (calendar : Calendar) (isLocal : Bool) (before bytes : Bytes) :
    ∃ c, direntReadBuffer calendar isLocal ⟨before, bytes, true⟩ =
        (direntRead calendar true isLocal bytes, c) ∧
      ∀ de n, direntRead calendar true isLocal bytes = .ok (de, n) →
        c = ⟨before ++ bytes.take n, bytes.drop n, true⟩ := by
  unfold direntReadBuffer direntRead
  dsimp only
  rw [left_bind]
  have hahead : (ByteCursor.mk before bytes true).left = bytes.length := rfl
  rw [hahead]
  by_cases hsize : bytes.length < fixedSize isLocal
  · rw [ensure_of_lt hsize, if_pos hsize]
    exact ⟨_, rfl, fun de n h => by cases h⟩
  rw [ensure_of_le (by omega), if_neg hsize]
  rcases (looksAt_readFixed isLocal).copy (by omega : fixedSize isLocal ≤ bytes.length) before with
    ⟨f, hcopy, hfixed⟩ | ⟨e, t, t', hcopy, hfixed⟩
  · rw [bind_of_ok hfixed, hcopy]
    dsimp only
    rw [left_bind]
    generalize htail : bytes.drop (fixedSize isLocal) = tail
    have hahead' : (ByteCursor.mk (before ++ bytes.take (fixedSize isLocal)) tail true).left =
        tail.length := rfl
    rw [hahead']
    by_cases hvariable : tail.length < f.variableSize
    · rw [ensure_of_lt hvariable, if_pos hvariable]
      exact ⟨_, rfl, fun de n h => by cases h⟩
    rw [ensure_of_le (by omega), if_neg hvariable]
    rcases (looksAt_readVariable isLocal f).copy (by omega : f.variableSize ≤ tail.length)
        (before ++ bytes.take (fixedSize isLocal)) with
      ⟨parts, hcopy', hread⟩ | ⟨e, t, t', hcopy', hread⟩
    · rw [bind_of_ok hread, hcopy']
      dsimp only
      rw [isOk_bind]
      -- both flags are set
      cases hfinish : (f.withVariable calendar isLocal parts.1 parts.2.1 parts.2.2).finish
          isLocal true with
      | error e => exact ⟨_, rfl, fun de n h => by cases h⟩
      | ok de =>
          refine ⟨_, rfl, ?_⟩
          rintro de' n ⟨⟩
          rw [← htail, List.append_assoc, ← List.take_add, List.drop_drop]
    · rw [bind_of_error hread, hcopy']
      exact ⟨_, rfl, fun de n h => by cases h⟩
  · rw [bind_of_error hfixed, hcopy]
    exact ⟨_, rfl, fun de n h => by cases h⟩

/-! ## Directories -/

/-- The loop of `_zip_read_cdir` on the buffer of the directory. -/
def readEntriesBuffer (calendar : Calendar) (isZip64 : Bool) :
    Nat → Nat → Nat → Nat → ByteCursor → Except ZipError (List ReadDirent × Nat × Nat)
  | 0, _, _, _, _ => .error .internal
  | fuel + 1, i, nentry, left, buffer =>
      if left = 0 then
        .ok ([], nentry, 0)
      else if i = nentry ∧ (isZip64 = true ∨ left < cdEntrySize) then
        .ok ([], nentry, left)
      else
        let grown := decide (i = nentry)
        match (if grown then cdirGrow nentry 0x10000 else .ok nentry) with
        | .error e => .error e
        | .ok nentry =>
            match direntReadBuffer calendar false buffer with
            | (.error e, _) => .error (if grown = true ∧ e = .nozip then .incons else e)
            | (.ok (de, n), buffer) =>
                match readEntriesBuffer calendar isZip64 fuel (i + 1) nentry
                    ((left + (2 ^ 64 - n)) % 2 ^ 64) buffer with
                | .error e => .error e
                | .ok (entries, nentry, left) => .ok (de :: entries, nentry, left)

/-- The buffer that is shared makes no difference to the loop. -/
theorem readEntriesBuffer_eq (calendar : Calendar) (isZip64 : Bool)
    (fuel i nentry left : Nat) (before bytes : Bytes) :
    readEntriesBuffer calendar isZip64 fuel i nentry left ⟨before, bytes, true⟩ =
      readEntries calendar true isZip64 fuel i nentry left bytes := by
  induction fuel generalizing i nentry left before bytes with
  | zero => rfl
  | succ fuel ih =>
      unfold readEntriesBuffer readEntries
      by_cases hleft : left = 0
      · rw [if_pos hleft, if_pos hleft]
      by_cases hstop : i = nentry ∧ (isZip64 = true ∨ left < cdEntrySize)
      · rw [if_neg hleft, if_neg hleft, if_pos hstop, if_pos hstop]
      rw [if_neg hleft, if_neg hleft, if_neg hstop, if_neg hstop]
      dsimp only
      cases (if decide (i = nentry) = true then cdirGrow nentry 0x10000 else .ok nentry) with
      | error e => rfl
      | ok reckoned =>
          obtain ⟨c, hread, hbehind⟩ := direntReadBuffer_eq calendar false before bytes
          rw [hread]
          cases hrecord : direntRead calendar true false bytes with
          | error e => rfl
          | ok result =>
              obtain ⟨de, n⟩ := result
              rw [hbehind de n hrecord]
              dsimp only
              have hrest := ih (i + 1) reckoned ((left + (2 ^ 64 - n)) % 2 ^ 64)
                (before ++ bytes.take n) (bytes.drop n)
              cases hentries : readEntries calendar true isZip64 fuel (i + 1) reckoned
                  ((left + (2 ^ 64 - n)) % 2 ^ 64) (bytes.drop n) with
              | error e => rw [hrest.trans hentries]
              | ok entries => rw [hrest.trans hentries]

/-- What is accepted does not depend on where it is read from, nor on what follows. -/
theorem direntRead_append {calendar : Calendar} {fromBuffer isLocal : Bool} {bytes : Bytes}
    {de : ReadDirent} {n : Nat} (h : direntRead calendar fromBuffer isLocal bytes = .ok (de, n))
    (fromBuffer' : Bool) (rest : Bytes) :
    n ≤ bytes.length ∧
      direntRead calendar fromBuffer' isLocal (bytes ++ rest) = .ok (de, n) := by
  obtain ⟨r, hvalid, hread, rfl, tail, rfl⟩ := (direntRead_eq_ok_iff ..).mp h
  refine ⟨by simp, (direntRead_eq_ok_iff ..).mpr ⟨r, hvalid, hread, rfl, tail ++ rest, ?_⟩⟩
  rw [List.append_assoc]

theorem readEntries_append {calendar : Calendar} {fromBuffer isZip64 : Bool}
    {fuel i nentry left : Nat} {bytes : Bytes} {result : List ReadDirent × Nat × Nat}
    (h : readEntries calendar fromBuffer isZip64 fuel i nentry left bytes = .ok result)
    (fromBuffer' : Bool) (rest : Bytes) :
    readEntries calendar fromBuffer' isZip64 fuel i nentry left (bytes ++ rest) = .ok result := by
  induction fuel generalizing i nentry left bytes result with
  | zero => cases h
  | succ fuel ih =>
      unfold readEntries at h ⊢
      split at h
      · next hleft => rw [if_pos hleft, h]
      next hleft =>
      rw [if_neg hleft]
      split at h
      · next hstop => rw [if_pos hstop, h]
      next hstop =>
      rw [if_neg hstop]
      dsimp only at h ⊢
      split at h
      · cases h
      next reckoned hgrown =>
      split at h
      · cases h
      next de n hrecord =>
      obtain ⟨hinside, hrecord'⟩ := direntRead_append hrecord fromBuffer' rest
      rw [hrecord']
      dsimp only
      split at h
      · cases h
      next des nentry' left' hdes =>
      rw [List.drop_append_of_le_length hinside, ih hdes]
      exact h

/-- **Directories** are read alike from the one buffer that their records share and from
the file, where every part of a record has its own; and what follows the records that
are accepted makes no difference. -/
theorem readEntries_alike (calendar : Calendar) (isZip64 : Bool) (fuel i nentry left : Nat)
    (before bytes : Bytes) (result : List ReadDirent × Nat × Nat) :
    (readEntriesBuffer calendar isZip64 fuel i nentry left ⟨before, bytes, true⟩ = .ok result ↔
      readEntries calendar false isZip64 fuel i nentry left bytes = .ok result) ∧
    (readEntriesBuffer calendar isZip64 fuel i nentry left ⟨before, bytes, true⟩ = .ok result →
      ∀ rest, readEntriesBuffer calendar isZip64 fuel i nentry left
          ⟨before, bytes ++ rest, true⟩ = .ok result ∧
        readEntries calendar false isZip64 fuel i nentry left (bytes ++ rest) = .ok result) := by
  simp only [readEntriesBuffer_eq]
  have hswitch : ∀ {fromBuffer : Bool},
      readEntries calendar fromBuffer isZip64 fuel i nentry left bytes = .ok result →
      ∀ fromBuffer' rest,
        readEntries calendar fromBuffer' isZip64 fuel i nentry left (bytes ++ rest) = .ok result :=
    readEntries_append
  constructor
  · constructor
    · intro h
      simpa using hswitch h false []
    · intro h
      simpa using hswitch h true []
  · intro h rest
    exact ⟨hswitch h true rest, hswitch h false rest⟩

end Archive
end AllvmTools
