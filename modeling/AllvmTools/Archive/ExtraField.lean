import AllvmTools.Archive.Dirent
import AllvmTools.Library.ByteCursor

/-!
# Extra fields

The lists of extra fields that directory entries carry: `_zip_ef_parse` with its
tolerance for alignment padding, `_zip_ef_write`, `_zip_ef_get_by_id`,
`_zip_ef_merge`, and `_zip_ef_remove_internal`.

* `efParse_eq_ok_iff` — what is accepted is a row of fields with at most three
  zero bytes behind it, and the fields are what is read.
-/

namespace AllvmTools
namespace Archive

open Library Library.Files Library.LittleEndian
open Library.Leaving.Program Library.Reader

/-- The codes of `zip_error_t` that reading a directory sets. -/
inductive ZipError where
  | multidisk
  | seek
  | noent
  | memory
  | inval
  | eof
  | nozip
  | internal
  | incons
  | encrnotsupp
deriving DecidableEq, Repr

/-- `ZIP_EF_LOCAL` and `ZIP_EF_CENTRAL`: the headers a field is meant for. -/
structure EfFlags where
  inLocal : Bool
  inCentral : Bool
deriving DecidableEq, Repr

/-- The flag of one kind of header. -/
def EfFlags.of (isLocal : Bool) : EfFlags :=
  ⟨isLocal, !isLocal⟩

/-- `ZIP_EF_BOTH`. -/
def EfFlags.both : EfFlags :=
  ⟨true, true⟩

/-- `a & b & ZIP_EF_BOTH`. -/
def EfFlags.overlap (a b : EfFlags) : Bool :=
  (a.inLocal && b.inLocal) || (a.inCentral && b.inCentral)

/-- `a | (b & ZIP_EF_BOTH)`. -/
def EfFlags.union (a b : EfFlags) : EfFlags :=
  ⟨a.inLocal || b.inLocal, a.inCentral || b.inCentral⟩

/-- `struct zip_extra_field`; `size` is the length of the data. -/
structure ExtraField where
  flags : EfFlags
  id : Nat
  data : Bytes
deriving DecidableEq, Repr

def efUtf8Comment : Nat := 0x6375
def efUtf8Name : Nat := 0x7075
def efWinzipAes : Nat := 0x9901
def efZip64 : Nat := 0x0001

/-- `ZIP_EF_IS_INTERNAL`. -/
def efIsInternal (id : Nat) : Bool :=
  decide (id = efUtf8Comment ∨ id = efUtf8Name ∨ id = efWinzipAes ∨ id = efZip64)

/-! ## Parsing and writing -/

/-- One field of `_zip_ef_parse`. -/
def efField (flags : EfFlags) : Reader ZipError ExtraField := do
  let fid ← number 2
  let flen ← number 2
  let some efData ← bytes flen
    | leave .incons
  return ⟨flags, fid, efData⟩

/-- The loop of `_zip_ef_parse`; every turn takes at least four bytes, so the
length of the data is enough fuel. -/
def efParseLoop (flags : EfFlags) : Nat → Reader ZipError (List ExtraField)
  | 0 => pure []
  | fuel + 1 => do
      if 4 ≤ (← left) then
        let ef ← efField flags
        let efs ← efParseLoop flags fuel
        return ef :: efs
      else
        return []

/-- `_zip_ef_parse`.  Up to three zero bytes behind the fields are alignment
padding. -/
def efParse (flags : EfFlags) (data : Bytes) : Except ZipError (List ExtraField) :=
  match efParseLoop flags data.length (.new data) with
  | (.error e, _) => .error e
  | (.ok efs, b) =>
      if b.eof then
        .ok efs
      else
        match b.get b.left with
        | (none, _) => .error .incons
        | (some garbage, _) =>
            if 4 ≤ garbage.length ∨ garbage ≠ List.replicate garbage.length 0 then
              .error .incons
            else
              .ok efs

/-- `_zip_ef_write`. -/
def efWrite (efs : List ExtraField) (flags : EfFlags) : Bytes :=
  (efs.filter fun ef => ef.flags.overlap flags).flatMap fun ef => extraField ef.id ef.data

/-! ## Lists of fields -/

/-- `_zip_ef_get_by_id`: the data of the field number `idIdx` with the id. -/
def efGetById (efs : List ExtraField) (id idIdx : Nat) (flags : EfFlags) : Option Bytes :=
  match efs with
  | [] => none
  | ef :: rest =>
      if ef.id = id ∧ ef.flags.overlap flags = true then
        match idIdx with
        | 0 => some ef.data
        | idIdx + 1 => efGetById rest id idIdx flags
      else
        efGetById rest id idIdx flags

/-- One turn of `_zip_ef_merge`: the first equal field gets the flags too, a new
one goes to the end. -/
def efMergeOne : List ExtraField → ExtraField → List ExtraField
  | [], ef => [ef]
  | tt :: rest, ef =>
      if tt.id = ef.id ∧ tt.data = ef.data then
        { tt with flags := tt.flags.union ef.flags } :: rest
      else
        tt :: efMergeOne rest ef

/-- `_zip_ef_merge`. -/
def efMerge (target source : List ExtraField) : List ExtraField :=
  if target = [] then source else source.foldl efMergeOne target

/-- `_zip_ef_remove_internal`. -/
def efRemoveInternal (efs : List ExtraField) : List ExtraField :=
  efs.filter fun ef => !efIsInternal ef.id

/-! ## What is accepted -/

/-- A field that a header can hold, with the flags it is read with. -/
structure ExtraField.ReadAs (flags : EfFlags) (ef : ExtraField) : Prop where
  flags : ef.flags = flags
  id : ef.id < 2 ^ 16
  size : ef.data.length < 2 ^ 16

/-- The bytes of a row of fields. -/
def efBytes (efs : List ExtraField) : Bytes :=
  efs.flatMap fun ef => extraField ef.id ef.data

theorem efBytes_cons (ef : ExtraField) (efs : List ExtraField) :
    efBytes (ef :: efs) = extraField ef.id ef.data ++ efBytes efs :=
  List.flatMap_cons

@[simp] theorem length_extraField (tag : Nat) (data : Bytes) :
    (extraField tag data).length = 4 + data.length := by
  simp only [extraField, List.length_append, length_le]

/-- Reading one field that stands at the cursor. -/
theorem reads_efField {flags : EfFlags} {ef : ExtraField} (h : ef.ReadAs flags) :
    Reads (efField flags) (extraField ef.id ef.data) ef := by
  have hid : ef.id < 256 ^ 2 := by simpa using h.id
  have hsize : ef.data.length < 256 ^ 2 := by simpa using h.size
  have hef : (⟨flags, ef.id, ef.data⟩ : ExtraField) = ef := by
    rw [← h.flags]
  have hbytes : extraField ef.id ef.data =
      le 2 ef.id ++ (le 2 ef.data.length ++ (ef.data ++ [])) := by
    simp [extraField]
  rw [hbytes]
  refine (reads_number hid).bind ((reads_number hsize).bind ((reads_bytes ef.data rfl).bind ?_))
  rw [← hef]
  exact reads_pure _

theorem takes_efField (flags : EfFlags) :
    Takes (efField flags) fun ef field =>
      ef.ReadAs flags ∧ field = extraField ef.id ef.data := by
  unfold efField
  refine (takes_number 2).bind fun fid => (takes_number 2).bind fun flen =>
    (takes_bytes flen).bind ?_
  rintro (_ | efData)
  · exact takes_leave _ _
  · refine (takes_pure _).weaken ?_
    rintro ef field ⟨rfl, rfl⟩ _ ⟨hdata, hlength⟩ _ ⟨hflen, rfl⟩ _ ⟨hfid, rfl⟩
    cases hdata
    exact ⟨⟨rfl, by simpa using hfid, by rw [hlength]; simpa using hflen⟩, by
      simp [extraField, hlength]⟩

/-- A field that was read stood at the cursor. -/
theorem efField_eq_ok {flags : EfFlags} {b b' : ByteCursor} {ef : ExtraField}
    (h : efField flags b = (.ok ef, b')) :
    b'.ok = true ∧ ef.ReadAs flags ∧ b.rest = extraField ef.id ef.data ++ b'.rest := by
  have hok : b'.ok = true := by
    obtain ⟨fid, b₁, -, h⟩ := bind_eq_ok_iff.mp h
    obtain ⟨flen, b₂, -, h⟩ := bind_eq_ok_iff.mp h
    obtain ⟨efData, b₃, hdata, h⟩ := bind_eq_ok_iff.mp h
    cases efData with
    | none => cases h
    | some efData =>
        cases h
        exact ok_of_bytes hdata
  obtain ⟨-, field, ⟨hread, rfl⟩, hrest, -⟩ := takes_efField flags b ef b' h hok
  exact ⟨hok, hread, hrest⟩

/-- With too little ahead for a field the loop stops. -/
theorem efParseLoop_stop (flags : EfFlags) (fuel : Nat) {b : ByteCursor} (h : b.left < 4) :
    efParseLoop flags fuel b = (.ok [], b) := by
  cases fuel with
  | zero => rfl
  | succ fuel =>
      rw [efParseLoop, left_bind, if_neg (by omega)]
      rfl

/-- The loop reads a row of fields and stops in front of what is too short for a
further one. -/
theorem efParseLoop_efBytes {flags : EfFlags} {efs : List ExtraField}
    (h : ∀ ef ∈ efs, ef.ReadAs flags) {padding : Bytes} (hpadding : padding.length < 4)
    {fuel : Nat} (hfuel : (efBytes efs).length ≤ fuel) (before : Bytes) :
    efParseLoop flags fuel ⟨before, efBytes efs ++ padding, true⟩ =
      (.ok efs, ⟨before ++ efBytes efs, padding, true⟩) := by
  induction efs generalizing fuel before with
  | nil =>
      rw [efParseLoop_stop flags fuel (by simpa [efBytes, ByteCursor.left] using hpadding)]
      simp [efBytes]
  | cons ef rest ih =>
      have hlength := hfuel
      rw [efBytes_cons, List.length_append, length_extraField] at hlength
      have hleft : 4 ≤ (ByteCursor.mk before (efBytes (ef :: rest) ++ padding) true).left := by
        simp only [ByteCursor.left, if_true, List.length_append, efBytes_cons, length_extraField]
        omega
      cases fuel with
      | zero => omega
      | succ fuel =>
          have hfuel' : (efBytes rest).length ≤ fuel := by omega
          have hrest := ih (fun ef' hef' => h ef' (List.mem_cons_of_mem ef hef')) hfuel'
            (before ++ extraField ef.id ef.data)
          rw [efParseLoop, left_bind, if_pos hleft, efBytes_cons, List.append_assoc,
            bind_of_ok (reads_efField (h ef List.mem_cons_self) before _), bind_of_ok hrest]
          simp [pure, Leaving.Program.pure]

/-- What the loop read stood in front of where it stopped; with enough fuel it
stops in front of what is too short for a field. -/
theorem efParseLoop_eq_ok {flags : EfFlags} {fuel : Nat} {b b' : ByteCursor}
    {efs : List ExtraField} (hb : b.ok = true) (hfuel : b.rest.length ≤ fuel)
    (h : efParseLoop flags fuel b = (.ok efs, b')) :
    b'.ok = true ∧ b'.rest.length < 4 ∧ b.rest = efBytes efs ++ b'.rest ∧
      ∀ ef ∈ efs, ef.ReadAs flags := by
  induction fuel generalizing b efs with
  | zero =>
      cases h
      exact ⟨hb, by omega, by simp [efBytes], fun ef hef => by cases hef⟩
  | succ fuel ih =>
      rw [efParseLoop, left_bind] at h
      split at h
      · next hleft =>
        obtain ⟨ef, c, hef, h⟩ := bind_eq_ok_iff.mp h
        obtain ⟨efs', c', hefs, h⟩ := bind_eq_ok_iff.mp h
        cases h
        obtain ⟨hc, hread, hrest⟩ := efField_eq_ok hef
        have hlength : (extraField ef.id ef.data).length + c.rest.length = b.rest.length := by
          rw [hrest, List.length_append]
        rw [length_extraField] at hlength
        obtain ⟨hok, hshort, hrest', hall⟩ := ih hc (by omega) hefs
        refine ⟨hok, hshort, ?_, List.forall_mem_cons.mpr ⟨hread, hall⟩⟩
        rw [hrest, hrest', efBytes_cons, List.append_assoc]
      · next hleft =>
        cases h
        have hshort : b'.rest.length < 4 := by
          simpa [ByteCursor.left, hb] using hleft
        exact ⟨hb, hshort, by simp [efBytes], fun ef hef => by cases hef⟩

/-- What follows the fields in accepted data: up to three zero bytes. -/
def IsPadding (padding : Bytes) : Prop :=
  padding.length < 4 ∧ padding = List.replicate padding.length 0

/-- **Extra fields, read and written**: the data that is accepted is a row of
fields with at most three zero bytes behind it, and these fields are the result. -/
theorem efParse_eq_ok_iff (flags : EfFlags) (data : Bytes) (efs : List ExtraField) :
    efParse flags data = .ok efs ↔
      (∀ ef ∈ efs, ef.ReadAs flags) ∧
        ∃ padding, data = efBytes efs ++ padding ∧ IsPadding padding := by
  constructor
  · intro h
    unfold efParse at h
    split at h
    · cases h
    next efs' b hloop =>
    obtain ⟨hok, hshort, hrest, hall⟩ :=
      efParseLoop_eq_ok (b := .new data) rfl (Nat.le_refl _) hloop
    have hpadding : efs' = efs ∧ b.rest = List.replicate b.rest.length 0 := by
      split at h
      · next heof =>
        have hnil : b.rest = [] := by
          simpa [ByteCursor.eof, hok] using heof
        exact ⟨Except.ok.inj h, by simp [hnil]⟩
      · have hget : b.get b.left = (some b.rest, ⟨b.before ++ b.rest, [], true⟩) := by
          simp [ByteCursor.get, ByteCursor.left, hok]
        rw [hget] at h
        dsimp only at h
        split at h
        · cases h
        · next hzero =>
          rw [not_or, not_not] at hzero
          exact ⟨Except.ok.inj h, hzero.2⟩
    obtain ⟨rfl, hzero⟩ := hpadding
    exact ⟨hall, b.rest, hrest, hshort, hzero⟩
  · rintro ⟨hall, padding, rfl, hshort, hzero⟩
    have hloop := efParseLoop_efBytes hall hshort
      (show (efBytes efs).length ≤ (efBytes efs ++ padding).length by simp) []
    unfold efParse
    rw [ByteCursor.new, hloop]
    dsimp only
    split
    · rfl
    · have hget : (ByteCursor.mk ([] ++ efBytes efs) padding true).get
          (ByteCursor.mk ([] ++ efBytes efs) padding true).left =
            (some padding, ⟨[] ++ efBytes efs ++ padding, [], true⟩) := by
        simp [ByteCursor.get, ByteCursor.left]
      rw [hget]
      dsimp only
      rw [if_neg]
      rw [not_or, not_not]
      exact ⟨by omega, hzero⟩

theorem efWrite_eq_efBytes {flags : EfFlags} (hflags : flags.overlap flags = true)
    {efs : List ExtraField} (h : ∀ ef ∈ efs, ef.ReadAs flags) :
    efWrite efs flags = efBytes efs := by
  unfold efWrite efBytes
  rw [List.filter_eq_self.mpr]
  intro ef hef
  rw [(h ef hef).flags, hflags]

/-- **Reading is the inverse of writing**: the data that is accepted is what
`_zip_ef_write` makes of the fields that were read, up to three zero bytes. -/
theorem efParse_eq_ok_iff_efWrite {flags : EfFlags} (hflags : flags.overlap flags = true)
    (data : Bytes) (efs : List ExtraField) :
    efParse flags data = .ok efs ↔ (∀ ef ∈ efs, ef.ReadAs flags) ∧
      ∃ padding, data = efWrite efs flags ++ padding ∧ IsPadding padding := by
  rw [efParse_eq_ok_iff]
  constructor
  · rintro ⟨hread, padding, hdata, hpadding⟩
    exact ⟨hread, padding, by rw [efWrite_eq_efBytes hflags hread, hdata], hpadding⟩
  · rintro ⟨hread, padding, hdata, hpadding⟩
    exact ⟨hread, padding, by rw [hdata, efWrite_eq_efBytes hflags hread], hpadding⟩

/-- A field of a JAR file with three bytes of padding. -/
theorem efParse_eq_ok_iff_efWrite_padded :
    efParse (.of true) [0xFE, 0xCA, 1, 0, 7, 0, 0, 0] = .ok [⟨.of true, 0xCAFE, [7]⟩] := by
  refine (efParse_eq_ok_iff_efWrite (by decide) _ _).mpr
    ⟨?_, [0, 0, 0], by decide, by simp [IsPadding]⟩
  intro ef hef
  rw [List.mem_singleton.mp hef]
  exact ⟨rfl, by decide, by decide⟩

end Archive
end AllvmTools
