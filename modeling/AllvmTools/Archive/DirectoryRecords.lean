import AllvmTools.Archive.CentralDirectory
import AllvmTools.Library.Runs

/-!
# What a central directory is read from

The loop of `_zip_read_cdir` over the records of a directory, and the whole of
`_zip_read_cdir`.

* `readDirectory_eq_ok_iff` — the entries that are accepted are those of a row of
  records that fills the announced size, as many as announced or more by a
  multiple of 0x10000.
-/

namespace AllvmTools
namespace Archive

open Library Library.Text Library.Files Library.LittleEndian
open Library.Leaving.Program Library.Reader

/-- The bytes of a row of central records. -/
def recordRow (rs : List RawRecord) : Bytes :=
  rs.flatMap (RawRecord.bytes false)

/-- The record is read as the entry. -/
def RawRecord.ReadsAs (calendar : Calendar) (r : RawRecord) (de : ReadDirent) : Prop :=
  r.Valid false ∧ r.read calendar false = .ok de

/-- The number of entries that is announced fits the number there is: archives
that are not ZIP64 may announce it modulo 0x10000. -/
def CountFits (isZip64 : Bool) (nentry count : Nat) : Prop :=
  count = nentry ∨ isZip64 = false ∧ nentry < count ∧ (count - nentry) % 0x10000 = 0

theorem recordRow_cons (r : RawRecord) (rs : List RawRecord) :
    recordRow (r :: rs) = r.bytes false ++ recordRow rs :=
  List.flatMap_cons

theorem le_length_bytes {r : RawRecord} (h : r.Valid false) :
    cdEntrySize ≤ (r.bytes false).length := by
  rw [RawRecord.length_bytes h]
  exact Nat.le_add_right cdEntrySize _

theorem length_recordRow_le {calendar : Calendar} {rs : List RawRecord} {des : List ReadDirent}
    (h : List.Forall₂ (RawRecord.ReadsAs calendar) rs des) :
    des.length * cdEntrySize ≤ (recordRow rs).length := by
  induction h with
  | nil => simp
  | @cons r de rs des hr _ ih =>
      have hle := le_length_bytes hr.1
      rw [recordRow_cons, List.length_append, List.length_cons, Nat.succ_mul]
      omega

/-- Entries are few enough for their number to grow. -/
theorem cdirGrow_eq_ok {nentry : Nat} (h : nentry * cdEntrySize ≤ int64Max) :
    cdirGrow nentry 0x10000 = .ok (nentry + 0x10000) := by
  have hsmall : nentry + 0x10000 ≤ (2 ^ 64 - 1) / sizeofZipEntry := by
    unfold cdEntrySize int64Max at h
    unfold sizeofZipEntry
    omega
  unfold cdirGrow
  unfold sizeofZipEntry at hsmall ⊢
  dsimp only
  rw [Nat.mod_eq_of_lt (by omega), if_neg (by decide), if_neg (by omega)]

/-- The number of entries that is reckoned with when entry `i` is read. -/
def reckoned (i nentry : Nat) : Nat :=
  if i = nentry then nentry + 0x10000 else nentry

theorem countFits_reckoned {isZip64 : Bool} {i nentry count : Nat}
    (hcount : i < count) (hgrow : i = nentry → isZip64 = false) :
    CountFits isZip64 (reckoned i nentry) count ↔ CountFits isZip64 nentry count := by
  unfold CountFits reckoned
  split
  · next heq =>
    have := hgrow heq
    simp only [this, true_and]
    omega
  · rfl

/-- What is left of the size after an entry, in 64 bits. -/
def leftAfter (left n : Nat) : Nat :=
  (left + (2 ^ 64 - n)) % 2 ^ 64

theorem leftAfter_lt (left n : Nat) : leftAfter left n < 2 ^ 64 :=
  Nat.mod_lt _ (by decide)

theorem leftAfter_of_le {left n : Nat} (hle : n ≤ left) (hleft : left < 2 ^ 64) :
    leftAfter left n = left - n := by
  unfold leftAfter
  omega

/-- One turn of the loop that reads an entry. -/
theorem readEntries_succ_eq_ok_iff {calendar : Calendar} {fromBuffer isZip64 : Bool}
    {fuel i nentry left : Nat} {bytes : Bytes} {des' : List ReadDirent} {nentry' left' : Nat}
    (hleft : left ≠ 0) (hmore : ¬ (i = nentry ∧ (isZip64 = true ∨ left < cdEntrySize)))
    (hgrow : i * cdEntrySize ≤ int64Max) :
    readEntries calendar fromBuffer isZip64 (fuel + 1) i nentry left bytes =
        .ok (des', nentry', left') ↔
      ∃ de n des, direntRead calendar fromBuffer false bytes = .ok (de, n) ∧ des' = de :: des ∧
        readEntries calendar fromBuffer isZip64 fuel (i + 1) (reckoned i nentry)
          (leftAfter left n) (bytes.drop n) = .ok (des, nentry', left') := by
  have hreckoned : (if decide (i = nentry) = true then cdirGrow nentry 0x10000 else .ok nentry) =
      .ok (reckoned i nentry) := by
    unfold reckoned
    by_cases heq : i = nentry
    · subst heq
      simp [cdirGrow_eq_ok hgrow]
    · simp [heq]
  rw [readEntries, if_neg hleft, if_neg hmore]
  dsimp only
  rw [hreckoned]
  dsimp only
  cases hread : direntRead calendar fromBuffer false bytes with
  | error e => simp
  | ok result =>
      obtain ⟨de, n⟩ := result
      dsimp only
      rw [show (left + (2 ^ 64 - n)) % 2 ^ 64 = leftAfter left n from rfl]
      cases hrest : readEntries calendar fromBuffer isZip64 fuel (i + 1) (reckoned i nentry)
          (leftAfter left n) (bytes.drop n) with
      | error e =>
        constructor
        · intro h
          cases h
        · rintro ⟨de', n', des, h1, h2, h3⟩
          cases h1
          rw [hrest] at h3
          cases h3
      | ok result =>
          obtain ⟨des, nentry'', left''⟩ := result
          constructor
          · intro h
            cases h
            exact ⟨de, n, des, rfl, rfl, hrest⟩
          · rintro ⟨_, _, _, hde, rfl, hdes⟩
            cases hde
            rw [hrest] at hdes
            cases hdes
            rfl

/-- What the loop accepts. -/
theorem records_of_readEntries {calendar : Calendar} {fromBuffer isZip64 : Bool}
    {fuel i nentry left : Nat} {bytes : Bytes} {des : List ReadDirent}
    (hbytes : i * cdEntrySize + bytes.length ≤ int64Max) (hleft : left < 2 ^ 64)
    (h : readEntries calendar fromBuffer isZip64 fuel i nentry left bytes =
      .ok (des, i + des.length, 0)) :
    ∃ rs rest, bytes = recordRow rs ++ rest ∧ (recordRow rs).length = left ∧
      List.Forall₂ (RawRecord.ReadsAs calendar) rs des ∧
      CountFits isZip64 nentry (i + des.length) := by
  induction fuel generalizing i nentry left bytes des with
  | zero => cases h
  | succ fuel ih =>
      by_cases hzero : left = 0
      · rw [readEntries, if_pos hzero] at h
        cases h
        subst hzero
        exact ⟨[], bytes, by simp [recordRow], by simp [recordRow], .nil, Or.inl rfl⟩
      by_cases hstop : i = nentry ∧ (isZip64 = true ∨ left < cdEntrySize)
      · rw [readEntries, if_neg hzero, if_pos hstop] at h
        cases h
        exact absurd rfl hzero
      rw [readEntries_succ_eq_ok_iff hzero hstop (by omega)] at h
      obtain ⟨de, n, des, hread, rfl, hrest⟩ := h
      obtain ⟨r, hvalid, hentry, hn, tail, rfl⟩ := (direntRead_eq_ok_iff ..).mp hread
      have hsize := le_length_bytes hvalid
      have hcount : i + (de :: des).length = i + 1 + des.length := by
        rw [List.length_cons]
        omega
      have hmul : (i + 1) * cdEntrySize = i * cdEntrySize + cdEntrySize := Nat.succ_mul ..
      rw [List.length_append] at hbytes
      rw [hn, List.drop_left, hcount] at hrest
      obtain ⟨rs, rest, rfl, hlength, hrs, hfits⟩ :=
        ih (by omega) (leftAfter_lt left (r.bytes false).length) hrest
      rw [List.length_append] at hbytes
      -- a record that goes beyond the size would leave more than the file has
      have hle : (r.bytes false).length ≤ left := by
        by_contra hbeyond
        unfold leftAfter at hlength
        unfold int64Max at hbytes
        omega
      rw [leftAfter_of_le hle hleft] at hlength
      refine ⟨r :: rs, rest, by rw [recordRow_cons, List.append_assoc], ?_,
        .cons ⟨hvalid, hentry⟩ hrs, ?_⟩
      · rw [recordRow_cons, List.length_append]
        omega
      · rw [hcount]
        refine (countFits_reckoned (by omega) fun heq => ?_).mp hfits
        simpa [heq] using fun hzip64 => hstop ⟨heq, Or.inl hzip64⟩

/-- The loop accepts a row of records. -/
theorem readEntries_of_records {calendar : Calendar} (fromBuffer : Bool) {isZip64 : Bool}
    {fuel i nentry : Nat} {rs : List RawRecord} {rest : Bytes} {des : List ReadDirent}
    (hi : i ≤ nentry) (hbytes : i * cdEntrySize + (recordRow rs ++ rest).length ≤ int64Max)
    (hfuel : (recordRow rs).length < fuel)
    (hrs : List.Forall₂ (RawRecord.ReadsAs calendar) rs des)
    (hfits : CountFits isZip64 nentry (i + des.length)) :
    readEntries calendar fromBuffer isZip64 fuel i nentry (recordRow rs).length
      (recordRow rs ++ rest) = .ok (des, i + des.length, 0) := by
  induction hrs generalizing i nentry fuel with
  | nil =>
      cases fuel with
      | zero => exact absurd hfuel (Nat.not_lt_zero _)
      | succ fuel =>
          have hcount : nentry = i := by
            rcases hfits with hfits | ⟨-, hlt, -⟩
            · exact hfits.symm
            · exact absurd hlt (Nat.not_lt.mpr hi)
          rw [readEntries, if_pos (by simp [recordRow]), hcount]
          rfl
  | @cons r de rs des hr hrs ih =>
      have hsize := le_length_bytes hr.1
      have hcount : i + (de :: des).length = i + 1 + des.length := by
        rw [List.length_cons]
        omega
      have hmul : (i + 1) * cdEntrySize = i * cdEntrySize + cdEntrySize := Nat.succ_mul ..
      have hpos : 0 < cdEntrySize := by decide
      have hlength : (recordRow (r :: rs)).length =
          (r.bytes false).length + (recordRow rs).length := by
        rw [recordRow_cons, List.length_append]
      have hmore :
          ¬ (i = nentry ∧ (isZip64 = true ∨ (recordRow (r :: rs)).length < cdEntrySize)) := by
        rintro ⟨rfl, hzip64 | hshort⟩
        · rcases hfits with hfits | ⟨hfits, -⟩
          · rw [hcount] at hfits
            omega
          · rw [hzip64] at hfits
            cases hfits
        · omega
      cases fuel with
      | zero => exact absurd hfuel (Nat.not_lt_zero _)
      | succ fuel =>
          rw [List.length_append] at hbytes
          have hsmall : int64Max < 2 ^ 64 := by decide
          have hread := direntRead_bytes calendar fromBuffer hr.1 (recordRow rs ++ rest)
          rw [hr.2] at hread
          rw [readEntries_succ_eq_ok_iff (by omega) hmore (by omega), hcount]
          refine ⟨de, (r.bytes false).length, des, ?_, rfl, ?_⟩
          · rw [recordRow_cons, List.append_assoc, hread]
            rfl
          · rw [leftAfter_of_le (by omega) (by omega), hlength, Nat.add_sub_cancel_left,
              recordRow_cons, List.append_assoc, List.drop_left]
            apply ih
            · unfold reckoned
              split <;> omega
            · rw [List.length_append]
              omega
            · omega
            · refine (countFits_reckoned (by omega) fun heq => ?_).mpr (hcount ▸ hfits)
              simpa [heq] using fun hzip64 => hmore ⟨heq, Or.inl hzip64⟩

/-! ## The whole directory -/

/-- The file from a position of the buffer on. -/
theorem setOffset_drop {file : Bytes} {bufOffset offset : Nat}
    (h : bufOffset + offset ≤ file.length) :
    (ByteCursor.new (file.drop bufOffset)).setOffset offset =
      ⟨(file.drop bufOffset).take offset, file.drop (bufOffset + offset), true⟩ := by
  unfold ByteCursor.setOffset ByteCursor.new ByteCursor.data
  rw [List.nil_append, if_neg (by rw [List.length_drop]; omega), List.drop_drop]

/-- A directory that is accepted is a row of records in the file, read from the
buffer and from the file alike. -/
theorem readDirectory_eq_ok_iff {calendar : Calendar} {file : Bytes} {bufOffset : Nat}
    {r : EndRecord} (hfile : file.length ≤ int64Max) (hinside : r.offset + r.size ≤ file.length)
    (des : List ReadDirent) :
    r.readDirectory calendar file bufOffset (.new (file.drop bufOffset)) =
        .ok (des, des.length, 0) ↔
      ∃ rs rest, file.drop r.offset = recordRow rs ++ rest ∧ (recordRow rs).length = r.size ∧
        List.Forall₂ (RawRecord.ReadsAs calendar) rs des ∧
        CountFits r.isZip64 r.nentry des.length := by
  have hsmall : int64Max < 2 ^ 64 := by decide
  unfold EndRecord.readDirectory
  split
  · next hbuffer =>
    have hget : (((ByteCursor.new (file.drop bufOffset)).setOffset (r.offset - bufOffset)).get
        r.size).1 = some ((file.drop r.offset).take r.size) := by
      rw [setOffset_drop (by omega), Nat.add_sub_cancel' hbuffer, ByteCursor.get,
        if_pos ⟨rfl, by rw [List.length_drop]; omega⟩]
    have hlength : ((file.drop r.offset).take r.size).length = r.size :=
      List.length_take_of_le (by rw [List.length_drop]; omega)
    rw [hget]
    dsimp only
    constructor
    · intro h
      have hread : readEntries calendar true r.isZip64
          (((file.drop r.offset).take r.size).length + 1) 0 r.nentry r.size
          ((file.drop r.offset).take r.size) = .ok (des, 0 + des.length, 0) := by
        simpa using h
      obtain ⟨rs, rest, hrow, hsize, hrs, hfits⟩ :=
        records_of_readEntries (by rw [hlength]; omega) (by omega) hread
      refine ⟨rs, rest ++ (file.drop r.offset).drop r.size, ?_, hsize, hrs, by simpa using hfits⟩
      rw [← List.append_assoc, ← hrow, List.take_append_drop]
    · rintro ⟨rs, rest, hrow, hsize, hrs, hfits⟩
      have h : readEntries calendar true r.isZip64 ((recordRow rs).length + 1) 0 r.nentry
          (recordRow rs).length (recordRow rs ++ []) = .ok (des, 0 + des.length, 0) :=
        readEntries_of_records true (Nat.zero_le r.nentry) (by rw [List.append_nil]; omega)
          (Nat.lt_succ_self _) hrs (by simpa using hfits)
      rw [hrow, ← hsize, List.take_left]
      simpa using h
  · next hbuffer =>
    constructor
    · intro h
      have hread : readEntries calendar false r.isZip64 (file.length + 1) 0 r.nentry r.size
          (file.drop r.offset) = .ok (des, 0 + des.length, 0) := by
        simpa using h
      obtain ⟨rs, rest, hrow, hsize, hrs, hfits⟩ :=
        records_of_readEntries (by rw [List.length_drop]; omega) (by omega) hread
      exact ⟨rs, rest, hrow, hsize, hrs, by simpa using hfits⟩
    · rintro ⟨rs, rest, hrow, hsize, hrs, hfits⟩
      have hle : (recordRow rs ++ rest).length ≤ file.length := by
        rw [← hrow, List.length_drop]
        omega
      rw [List.length_append] at hle
      have h : readEntries calendar false r.isZip64 (file.length + 1) 0 r.nentry
          (recordRow rs).length (recordRow rs ++ rest) = .ok (des, 0 + des.length, 0) :=
        readEntries_of_records false (Nat.zero_le r.nentry) (by rw [List.length_append]; omega)
          (by omega) hrs (by simpa using hfits)
      rw [hrow, ← hsize]
      simpa using h

theorem demand_eq_ok_iff {cond : Bool} {e : ZipError} {u : Unit} :
    demand cond e = .ok u ↔ cond = true := by
  unfold demand
  split <;> simp_all

/-- What `_zip_read_cdir` asks for, in the order in which it does. -/
theorem readCdir_eq_ok_iff {calendar : Calendar} {file : Bytes} {bufOffset : Nat}
    {buffer : ByteCursor} {eocdOffset : Nat} {cd : Cdir} :
    readCdir calendar file bufOffset buffer eocdOffset = .ok cd ↔
      eocdLen ≤ (buffer.setOffset eocdOffset).left ∧
      ((buffer.setOffset eocdOffset).get 4).1 = some eocdMagic ∧
      ∃ r, readEndRecord file bufOffset buffer eocdOffset = .ok r ∧
        r.offset + r.size ≤ bufOffset + eocdOffset ∧
        readArchiveComment buffer eocdOffset
          ((buffer.setOffset (eocdOffset + 20)).getLE 2).1 = .ok cd.comment ∧
        r.readDirectory calendar file bufOffset buffer = .ok (cd.entries, cd.entries.length, 0) ∧
        cd.size = r.size ∧ cd.offset = r.offset ∧ cd.isZip64 = r.isZip64 := by
  obtain ⟨entries, size, offset, comment, isZip64⟩ := cd
  unfold readCdir
  simp only [Runs.except_bind_eq_ok_iff, demand_eq_ok_iff, decide_eq_true_eq]
  constructor
  · rintro ⟨-, hroom, -, hmagic, r, hr, -, hinside, c, hcomment, ⟨des, n, left⟩, hdirectory,
      -, ⟨hcount, hleft⟩, h⟩
    cases h
    have hresult : (des, n, left) = (des, des.length, 0) := by
      rw [show n = des.length from hcount.symm, show left = 0 from hleft]
    rw [hresult] at hdirectory
    exact ⟨hroom, hmagic, r, hr, hinside, hcomment, hdirectory, rfl, rfl, rfl⟩
  · rintro ⟨hroom, hmagic, r, hr, hinside, hcomment, hdirectory, hsize, hoffset, hzip64⟩
    subst hsize hoffset hzip64
    exact ⟨(), hroom, (), hmagic, r, hr, (), hinside, comment, hcomment, _, hdirectory, (),
      ⟨rfl, rfl⟩, rfl⟩

end Archive
end AllvmTools
