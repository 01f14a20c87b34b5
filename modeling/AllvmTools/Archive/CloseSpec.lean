import AllvmTools.Archive.Layout

/-!
# What a close writes

The parts of `zip_close` in surroundings where no operation fails: each one
either appends to the temporary output or, when `add_data` goes back to its
header, overwrites it.  The entries of an open archive are `Pending`: kept,
replaced or added.

* `writeEntry_achieves` — an entry becomes a block that holds its module, unless
  `GrowsHeader` says that its header would change its length.
* `draft_achieves` — the temporary output becomes the whole archive.
* `draft_fails` — an entry that grows its header makes the close fail.
-/

namespace AllvmTools
namespace Archive

open Library Library.Files Library.LittleEndian Library.Crc32 Library.Commands
open Library.Commands.Command

/-- Surroundings in which nothing fails. -/
def Env.calm : Env :=
  ⟨fun _ => false, []⟩

/-- The old file stands; the temporary output holds `front` up to the write
position and `back` behind it. -/
structure Cursor (old : Option Bytes) (front back : Bytes) (w : World) : Prop where
  file : w.file = old
  temp : w.temp = some (front ++ back)
  pos : w.pos = front.length

section Specs

variable {old : Option Bytes} {front back : Bytes}

/-! ## Single operations -/

theorem op_calm {α : Type} (act : World → Option α × World) (w : World) :
    op act .calm w = act { w with ops := w.ops + 1 } :=
  rfl

theorem beginWrite_achieves :
    Achieves .calm (fun w => w.file = old) beginWrite fun _ => Cursor old [] [] := by
  intro w hw
  exact ⟨(), _, rfl, hw, rfl, rfl⟩

theorem write_achieves (bytes : Bytes) :
    Achieves .calm (Cursor old front back) (write bytes)
      fun _ => Cursor old (front ++ bytes) (back.drop bytes.length) := by
  intro w hw
  refine ⟨(), _, rfl, hw.file, ?_, ?_⟩
  · show w.temp.map (fun content => writeAt content w.pos bytes) = _
    rw [hw.temp, hw.pos, Option.map_some, writeAt]
    simp only [List.take_left, List.length_append, List.append_assoc]
    rw [show front.length - (front.length + back.length) = 0 by omega, List.drop_append]
    simp
  · show w.pos + bytes.length = (front ++ bytes).length
    rw [hw.pos, List.length_append]

/-- At the end, a write appends. -/
theorem write_achieves_end (bytes : Bytes) :
    Achieves .calm (Cursor old front []) (write bytes)
      fun _ => Cursor old (front ++ bytes) [] := by
  have hwrite : Achieves .calm (Cursor old front []) (write bytes)
      fun _ => Cursor old (front ++ bytes) ([].drop bytes.length) := write_achieves bytes
  simpa using hwrite

theorem tellWrite_achieves :
    Achieves .calm (Cursor old front back) tellWrite
      fun n w => n = front.length ∧ Cursor old front back w := by
  intro w hw
  exact ⟨w.pos, _, rfl, hw.pos, hw.file, hw.temp, hw.pos⟩

/-- Seeking moves the boundary between what is before and behind the position. -/
theorem seekWrite_achieves {front' back' : Bytes} {offset : Nat}
    (hsplit : front ++ back = front' ++ back') (hoffset : front'.length = offset) :
    Achieves .calm (Cursor old front back) (seekWrite offset)
      fun _ => Cursor old front' back' := by
  intro w hw
  refine ⟨(), _, rfl, hw.file, ?_, hoffset.symm⟩
  show w.temp = _
  rw [hw.temp, hsplit]

theorem readOld_achieves {file data : Bytes} {offset len : Nat}
    (hdata : (file.drop offset).take len = data) (hlen : data.length = len) :
    Achieves .calm (Cursor (some file) front back) (readOld offset len)
      fun read w => read = data ∧ Cursor (some file) front back w := by
  intro w hw
  refine ⟨data, { w with ops := w.ops + 1 }, ?_, rfl, hw.file, hw.temp, hw.pos⟩
  rw [readOld, op_calm]
  simp only [hw.file, Option.getD_some, hdata, hlen, if_pos]

/-! ## Headers and data -/

theorem direntWriteLocal_achieves (de : Dirent) (force : Bool) :
    Achieves .calm (Cursor old front back) (direntWriteLocal de force) fun r w =>
      r = (de.withWriteFlags, de.localIsZip64 force) ∧
        Cursor old (front ++ de.withWriteFlags.localHeader force)
          (back.drop (de.withWriteFlags.localHeader force).length) w := by
  apply (write_achieves _).next
  apply (write_achieves _).next
  apply (write_achieves _).next
  apply Achieves.pure
  intro w hw
  refine ⟨rfl, ?_⟩
  simpa [Dirent.localHeader, List.drop_drop, Nat.add_assoc] using hw

theorem copySource_achieves (data : Bytes) :
    Achieves .calm (Cursor old front []) (copySource data)
      fun _ => Cursor old (front ++ data) [] := by
  induction data using copySource.induct generalizing front with
  | case1 =>
      rw [copySource, if_pos rfl]
      apply Achieves.pure
      intro w hw
      simpa using hw
  | case2 data hdata ih =>
      rw [copySource, if_neg hdata]
      apply (write_achieves_end _).next
      simpa only [List.append_assoc, List.take_append_drop] using
        @ih (front ++ data.take bufSize)

theorem copyData_achieves {file : Bytes} (offset len : Nat) (hlen : offset + len ≤ file.length) :
    Achieves .calm (Cursor (some file) front []) (copyData offset len)
      fun _ => Cursor (some file) (front ++ (file.drop offset).take len) [] := by
  induction offset, len using copyData.induct generalizing front with
  | case1 offset =>
      rw [copyData, if_pos rfl]
      apply Achieves.pure
      intro w hw
      simpa using hw
  | case2 offset len hpos ih =>
      have hchunk : ((file.drop offset).take (min len bufSize)).length = min len bufSize := by
        rw [List.length_take, List.length_drop]
        omega
      rw [copyData, if_neg hpos]
      apply (readOld_achieves rfl hchunk).bind_value
      apply (write_achieves_end _).next
      have hrest : (file.drop offset).take len =
          (file.drop offset).take (min len bufSize) ++
            (file.drop (offset + min len bufSize)).take (len - min len bufSize) := by
        rw [← List.drop_drop, ← List.take_add, show min len bufSize + (len - min len bufSize) = len by
          omega]
      rw [hrest, ← List.append_assoc]
      exact ih (by omega)

/-! ## Reading the old entries -/

/-- The two length fields of a local header, as a close reads them. -/
theorem lengths_of_direntSize {file : Bytes} {offset size : Nat}
    (hsize : direntSize file offset = some size) :
    ∃ lengths, (file.drop (offset + 26)).take 4 = lengths ∧ lengths.length = 4 ∧
      size = lentrySize + ofLE (lengths.take 2) + ofLE (lengths.drop 2) := by
  unfold direntSize at hsize
  dsimp only at hsize
  split at hsize
  · next hfour => exact ⟨_, rfl, hfour, (Option.some.inj hsize).symm⟩
  · cases hsize

theorem readLocalEf_achieves {file : Bytes} {orig : Dirent} {size : Nat}
    (hsize : direntSize file orig.offset = some size)
    (hend : orig.offset + size ≤ file.length) :
    Achieves .calm (Cursor (some file) front back) (readLocalEf (some orig))
      fun _ => Cursor (some file) front back := by
  obtain ⟨lengths, hread, hfour, rfl⟩ := lengths_of_direntSize hsize
  apply (readOld_achieves hread hfour).bind_value
  split
  · exact Achieves.pure fun _ hw => hw
  · have hextra : ((file.drop (orig.offset + lentrySize + ofLE (lengths.take 2))).take
        (ofLE (lengths.drop 2))).length = ofLE (lengths.drop 2) := by
      rw [List.length_take, List.length_drop]
      omega
    apply (readOld_achieves rfl hextra).bind_value
    exact Achieves.pure fun _ hw => hw

theorem fileGetOffsetM_achieves {file : Bytes} {orig : Dirent} {size : Nat}
    (hsize : direntSize file orig.offset = some size) (hend : orig.offset + size ≤ int64Max) :
    Achieves .calm (Cursor (some file) front back) (fileGetOffsetM orig)
      fun offset w => offset = orig.offset + size ∧ Cursor (some file) front back w := by
  obtain ⟨lengths, hread, hfour, rfl⟩ := lengths_of_direntSize hsize
  apply (readOld_achieves hread hfour).bind_value
  rw [if_neg (by omega)]
  exact Achieves.pure fun _ hw => ⟨rfl, hw⟩

/-! ## New data -/

/-- The entry of the first header that `add_data` writes. -/
def Dirent.firstHeader (de : Dirent) (source : Buffer) : Dirent :=
  (de.preliminary source.bytes.length).withWriteFlags

/-- The entry of the second one, over data that was encoded as given. -/
def Dirent.lastHeader (de : Dirent) (source : Buffer) (method : Method) (data : Bytes) : Dirent :=
  (((de.firstHeader source).finished source method data.length).setVersionNeeded
    (forceZip64 de.compMethod source.bytes.length)).withWriteFlags

/-- The first header's bytes. -/
def Dirent.firstBytes (de : Dirent) (source : Buffer) : Bytes :=
  (de.firstHeader source).localHeader (forceZip64 de.compMethod source.bytes.length)

/-- The second header's bytes. -/
def Dirent.lastBytes (de : Dirent) (source : Buffer) (method : Method) (data : Bytes) : Bytes :=
  (de.lastHeader source method data).localHeader (forceZip64 de.compMethod source.bytes.length)

/-- The two headers are written, the second one over the first, and the data
between. -/
theorem writeData_achieves {codec : Codec} {source : Buffer} {de : Dirent} {method : Method}
    {data : Bytes} (hplain : de.encrypted = false)
    (hencode : codec.encode de.compMethod source.bytes = some (method, data)) :
    Achieves .calm (Cursor old front []) (writeData codec source de) fun r w =>
      r = (de.lastHeader source method data,
          (de.firstHeader source).localIsZip64 (forceZip64 de.compMethod source.bytes.length),
          (de.lastHeader source method data).localIsZip64
            (forceZip64 de.compMethod source.bytes.length),
          (front ++ de.firstBytes source ++ data).length) ∧
        Cursor old (front ++ de.lastBytes source method data)
          ((de.firstBytes source ++ data).drop (de.lastBytes source method data).length) w := by
  have hplain' : (de.preliminary source.bytes.length).withWriteFlags.encrypted = false := hplain
  have hencode' : codec.encode (de.preliminary source.bytes.length).withWriteFlags.compMethod
      source.bytes = some (method, data) := hencode
  -- the length of the data is the distance of the two positions
  have hlength : ∀ header : Bytes,
      (front ++ header ++ data).length - (front ++ header).length = data.length := by
    intro header
    simp only [List.length_append]
    omega
  have hback : Achieves .calm (Cursor old (front ++ de.firstBytes source ++ data) [])
      (seekWrite front.length) fun _ => Cursor old front (de.firstBytes source ++ data) :=
    seekWrite_achieves (by simp only [List.append_nil, List.append_assoc]) rfl
  apply tellWrite_achieves.bind_value
  apply (direntWriteLocal_achieves _ _).bind_value
  dsimp only
  rw [hplain', hencode']
  simp only [Bool.false_eq_true, if_false, List.drop_nil]
  apply tellWrite_achieves.bind_value
  apply (copySource_achieves data).next
  apply tellWrite_achieves.bind_value
  apply hback.next
  rw [hlength]
  apply (direntWriteLocal_achieves _ _).bind_value
  exact Achieves.pure fun w hw => ⟨rfl, hw⟩

/-- Replacing this data would change the length of the header: the entry that is
replaced was compressed to a size of 64 bits and the new data is far from it. -/
def GrowsHeader (de : Dirent) (source : Buffer) : Prop :=
  uint32Max ≤ de.compSize ∧ source.bytes.length ≤ maxSize .deflate

instance (de : Dirent) (source : Buffer) : Decidable (GrowsHeader de source) :=
  inferInstanceAs (Decidable (_ ∧ _))

theorem forceZip64_default {method : Method} (hmethod : method.isDefault = true) (size : Nat) :
    forceZip64 method size = decide (maxSize .deflate < size) := by
  have hstore : method ≠ .store := by
    rintro rfl
    cases hmethod
  unfold forceZip64 Method.actual
  rw [if_pos hmethod, decide_eq_true hstore, Bool.true_and]

/-- The two headers agree on having a ZIP64 field unless `GrowsHeader` holds. -/
theorem localIsZip64_headers {source : Buffer} {de : Dirent} (method : Method) {data : Bytes}
    (hmethod : de.compMethod.isDefault = true)
    (hbound : data.length ≤ deflateBound source.bytes.length) :
    (de.firstHeader source).localIsZip64 (forceZip64 de.compMethod source.bytes.length) =
        (de.lastHeader source method data).localIsZip64
          (forceZip64 de.compMethod source.bytes.length) ↔
      ¬ GrowsHeader de source := by
  have hstore : de.compMethod ≠ .store := by
    intro hstore
    rw [hstore] at hmethod
    cases hmethod
  have hfirst : (de.firstHeader source).needsZip64 false =
      (decide (uint32Max ≤ source.bytes.length) || decide (uint32Max ≤ de.compSize)) := by
    simp [Dirent.firstHeader, Dirent.preliminary, Dirent.withWriteFlags, Dirent.needsZip64, hstore]
  have hlast : (de.lastHeader source method data).needsZip64 false =
      (decide (uint32Max ≤ source.bytes.length) || decide (uint32Max ≤ data.length)) := by
    simp [Dirent.lastHeader, Dirent.finished, Dirent.setVersionNeeded, Dirent.withWriteFlags,
      Dirent.needsZip64]
  unfold Dirent.localIsZip64 GrowsHeader
  rw [forceZip64_default hmethod, hfirst, hlast]
  -- up to this size, deflated data fits 32 bits too
  by_cases hsize : source.bytes.length ≤ maxSize .deflate
  · have hdata := Nat.lt_of_le_of_lt hbound (deflateBound_lt hsize)
    have hshort : ¬ uint32Max ≤ source.bytes.length := by
      simp only [maxSize] at hsize
      simp only [uint32Max]
      omega
    rw [decide_eq_false (show ¬ maxSize .deflate < source.bytes.length by omega),
      decide_eq_false hshort, decide_eq_false (show ¬ uint32Max ≤ data.length by omega)]
    simp [hsize]
  · rw [decide_eq_true (show maxSize .deflate < source.bytes.length by omega)]
    simp [hsize]

/-- Headers that agree on their ZIP64 field are equally long. -/
theorem length_headers {source : Buffer} {de : Dirent} (method : Method) {data : Bytes}
    (hmethod : de.compMethod.isDefault = true)
    (hbound : data.length ≤ deflateBound source.bytes.length)
    (hgrows : ¬ GrowsHeader de source) :
    (de.lastBytes source method data).length = (de.firstBytes source).length := by
  have hagree := (localIsZip64_headers method hmethod hbound).mpr hgrows
  have hextra : ((de.lastHeader source method data).localExtra
        (forceZip64 de.compMethod source.bytes.length)).length =
      ((de.firstHeader source).localExtra
        (forceZip64 de.compMethod source.bytes.length)).length := by
    cases hforce : forceZip64 de.compMethod source.bytes.length with
    | true => rw [length_localExtra_forced, length_localExtra_forced]
    | false =>
        rw [hforce] at hagree
        cases hzip64 : (de.lastHeader source method data).localIsZip64 false with
        | false =>
            rw [localExtra_eq_nil hzip64, localExtra_eq_nil (hagree.trans hzip64)]
        | true =>
            -- without the flag the new data is short, and so is its compressed form
            have hsize : source.bytes.length ≤ maxSize .deflate := by
              rw [forceZip64_default hmethod, decide_eq_false_iff_not] at hforce
              omega
            have hdata := Nat.lt_of_le_of_lt hbound (deflateBound_lt hsize)
            have hlast : (decide (uint32Max ≤ source.bytes.length) ||
                decide (uint32Max ≤ data.length)) = true := by
              simpa [Dirent.localIsZip64, Dirent.lastHeader, Dirent.finished,
                Dirent.setVersionNeeded, Dirent.withWriteFlags, Dirent.needsZip64] using hzip64
            simp only [Bool.or_eq_true, decide_eq_true_eq] at hlast
            simp only [maxSize] at hsize
            simp only [uint32Max] at hlast hdata
            omega
  unfold Dirent.lastBytes Dirent.firstBytes
  rw [length_localHeader, length_localHeader, hextra]
  rfl

/-- `add_data` appends a block with the data, unless its header grows. -/
theorem addData_achieves {codec : Codec} (hcodec : codec.Lawful) {source : Buffer} {de : Dirent}
    (hmethod : de.compMethod.isDefault = true) (hplain : de.encrypted = false)
    (hname : de.filename.length ≤ 0xFFFF) (hgrows : ¬ GrowsHeader de source) :
    Achieves .calm (Cursor old front []) (addData codec source de) fun de' w =>
      ∃ b : Block, b.de = de' ∧ b.de.offset = de.offset ∧
        b.Holds codec ⟨de.filename, source.bytes⟩ ∧ Cursor old (front ++ b.bytes) [] w := by
  obtain ⟨method, data, hencode, hencodes⟩ := encode_default codec hmethod source.bytes
  have hbound := hencodes.length_le hcodec
  have hagree := (localIsZip64_headers method hmethod hbound).mpr hgrows
  have hlength := length_headers method hmethod hbound hgrows
  apply (writeData_achieves hplain hencode).bind_value
  dsimp only
  rw [if_neg (not_not_intro hagree)]
  -- the second header overwrites the first, and the cursor returns to the end
  have hend : Achieves .calm
      (Cursor old (front ++ de.lastBytes source method data)
        ((de.firstBytes source ++ data).drop (de.lastBytes source method data).length))
      (seekWrite (front ++ de.firstBytes source ++ data).length)
      fun _ => Cursor old (front ++ (de.lastBytes source method data ++ data)) [] := by
    apply seekWrite_achieves
    · rw [hlength, List.drop_left, List.append_nil, List.append_assoc]
    · simp only [List.length_append, hlength]
      omega
  apply hend.next
  apply Achieves.pure
  intro w hw
  refine ⟨⟨de.lastHeader source method data, forceZip64 de.compMethod source.bytes.length, data⟩,
    rfl, rfl, ?_, hw⟩
  exact ⟨rfl, hname, hplain, rfl, rfl, rfl, hencodes⟩

/-- A growing header makes `add_data` fail. -/
theorem addData_fails {codec : Codec} (hcodec : codec.Lawful) {source : Buffer} {de : Dirent}
    (hmethod : de.compMethod.isDefault = true) (hplain : de.encrypted = false)
    (hgrows : GrowsHeader de source) {w : World} (hw : Cursor old front [] w) :
    (addData codec source de .calm w).1 = none := by
  obtain ⟨method, data, hencode, hencodes⟩ := encode_default codec hmethod source.bytes
  have hbound := hencodes.length_le hcodec
  obtain ⟨_, w', hrun, rfl, -⟩ := writeData_achieves hplain hencode w hw
  have hdiffer := mt (localIsZip64_headers method hmethod hbound).mp
    (not_not_intro hgrows)
  unfold addData
  rw [bind_of_some hrun]
  dsimp only
  rw [if_pos hdiffer]
  rfl

/-! ## Entries -/

end Specs

/-- What an entry of an open archive stands for. -/
inductive Pending (codec : Codec) (old : Option Bytes) : ZipEntry → Module → Prop
  | kept {file : Bytes} {o : Dirent} {m : Module} (hold : old = some file)
      (hstored : Stored codec file o m) :
      Pending codec old ⟨some o, none, none, false⟩ m
  | replaced {file : Bytes} {o : Dirent} {m : Module} {source : Buffer} (hold : old = some file)
      (hstored : Stored codec file o m) :
      Pending codec old
        ⟨some o, some ⟨{ o with compMethod := .replacedDefault }, true, false⟩, some source, false⟩
        ⟨m.name, source.bytes⟩
  | added {name : Text} {encoding : Encoding} {source : Buffer} (hname : name.length ≤ 0xFFFF) :
      Pending codec old
        ⟨none, some ⟨{ Dirent.init with filename := name, nameEncoding := encoding }, false, true⟩,
          some source, false⟩
        ⟨name, source.bytes⟩

/-- The close will find the entry's new header longer than its first one, or
shorter. -/
def ZipEntry.Grows (e : ZipEntry) : Prop :=
  ∃ o ∈ e.orig, ∃ source ∈ e.source, GrowsHeader o source

section Entries

variable {codec : Codec} {old : Option Bytes} {front : Bytes}

theorem Pending.not_deleted {e : ZipEntry} {m : Module} (h : Pending codec old e m) :
    e.deleted = false := by
  cases h <;> rfl

/-- The old data is copied behind a new header. -/
theorem writeEntry_kept {file : Bytes} {o : Dirent} {m : Module} (hstored : Stored codec file o m)
    (hfile : file.length ≤ int64Max) :
    Achieves .calm (Cursor (some file) front [])
      (writeEntry codec ⟨some o, none, none, false⟩) fun de w =>
        ∃ b : Block, b.de = de ∧ b.de.offset = front.length ∧ b.Holds codec m ∧
          Cursor (some file) (front ++ b.bytes) [] w := by
  obtain ⟨size, data, after, hsize, hdrop, hlength, hend, hencodes⟩ := hstored.data
  have hcopied : (file.drop (o.offset + size)).take o.compSize = data := by
    rw [hdrop, ← hlength, List.take_left]
  apply (readLocalEf_achieves hsize (by omega)).next
  apply tellWrite_achieves.bind_value
  apply (direntWriteLocal_achieves _ _).bind_value
  apply (fileGetOffsetM_achieves hsize (by omega)).bind_value
  simp only [List.drop_nil]
  apply (copyData_achieves (o.offset + size) o.compSize hend).next
  apply Achieves.pure
  intro w hw
  rw [hcopied, List.append_assoc] at hw
  refine ⟨⟨_, false, data⟩, rfl, rfl, ?_, hw⟩
  exact ⟨hstored.filename, hstored.length_name, hstored.encrypted, hlength.symm,
    hstored.uncompSize, hstored.crc, hencodes⟩

theorem writeEntry_achieves (hcodec : codec.Lawful) {e : ZipEntry} {m : Module}
    (he : Pending codec old e m)
    (hold : (∀ file ∈ old, file.length ≤ int64Max) ∨ e.orig = none) (hgrows : ¬ e.Grows) :
    Achieves .calm (Cursor old front []) (writeEntry codec e) fun de w =>
      ∃ b : Block, b.de = de ∧ b.de.offset = front.length ∧ b.Holds codec m ∧
        Cursor old (front ++ b.bytes) [] w := by
  cases he with
  | kept hfile hstored =>
      subst hfile
      exact writeEntry_kept hstored (hold.resolve_right (Option.some_ne_none _) _ rfl)
  | @replaced file o m source hfile hstored =>
      subst hfile
      obtain ⟨size, -, -, hsize, -, -, hend, -⟩ := hstored.data
      have hname : o.filename.length ≤ 0xFFFF := hstored.filename ▸ hstored.length_name
      have hgrows' : ¬ GrowsHeader { o with compMethod := .replacedDefault, offset := front.length }
          source := fun h => hgrows ⟨o, rfl, source, rfl, h⟩
      apply (readLocalEf_achieves hsize (by omega)).next
      apply tellWrite_achieves.bind_value
      show Achieves .calm (Cursor (some file) front []) (addData codec source
        { o with compMethod := .replacedDefault, offset := front.length }) _
      have hadd := fun hplain => @addData_achieves (some file) front codec hcodec source
        { o with compMethod := .replacedDefault, offset := front.length } rfl hplain hname hgrows'
      apply (hadd hstored.encrypted).weaken
      rintro de w ⟨b, hde, hoffset, hholds, hw⟩
      exact ⟨b, hde, hoffset, hstored.filename ▸ hholds, hw⟩
  | @added name encoding source hname =>
      -- a new entry begins with sizes of zero
      have hgrows' : ¬ GrowsHeader { Dirent.init with
          filename := name, nameEncoding := encoding, offset := front.length } source :=
        fun h => absurd h.1 (show ¬ uint32Max ≤ 0 by decide)
      apply (show Achieves .calm (Cursor old front []) (readLocalEf none)
        (fun _ => Cursor old front []) from Achieves.pure fun _ hw => hw).next
      apply tellWrite_achieves.bind_value
      exact addData_achieves hcodec rfl rfl hname hgrows'

/-- The entry loop fails at the first entry whose header grows. -/
theorem writeEntry_fails (hcodec : codec.Lawful) {e : ZipEntry} {m : Module}
    (he : Pending codec old e m) (hgrows : e.Grows) {w : World} (hw : Cursor old front [] w) :
    (writeEntry codec e .calm w).1 = none := by
  obtain ⟨o, horig, source, hsource, hgrows⟩ := hgrows
  cases he with
  | kept => cases hsource
  | added => cases horig
  | @replaced file o m source hfile hstored =>
      cases horig
      cases hsource
      subst hfile
      obtain ⟨size, -, -, hsize, -, -, hend, -⟩ := hstored.data
      obtain ⟨_, w₁, hread, hw₁⟩ := readLocalEf_achieves hsize (by omega) w hw
      obtain ⟨_, w₂, htell, rfl, hw₂⟩ := tellWrite_achieves w₁ hw₁
      unfold writeEntry
      rw [bind_of_some hread, bind_of_some htell]
      exact @addData_fails (some file) front codec hcodec source
        { o with compMethod := .replacedDefault, offset := front.length } rfl hstored.encrypted
        hgrows w₂ hw₂

/-! ## The archive -/

theorem writeEntries_achieves (hcodec : codec.Lawful) {entries : List ZipEntry}
    {modules : List Module} (hentries : List.Forall₂ (Pending codec old) entries modules)
    (hold : (∀ file ∈ old, file.length ≤ int64Max) ∨ ∀ e ∈ entries, e.orig = none)
    (hgrows : ∀ e ∈ entries, ¬ e.Grows) :
    Achieves .calm (Cursor old front []) (writeEntries codec entries) fun des w =>
      ∃ blocks : List Block, blocks.map Block.de = des ∧ Consecutive front.length blocks ∧
        List.Forall₂ (Block.Holds codec) blocks modules ∧
        Cursor old (front ++ blockBytes blocks) [] w := by
  induction hentries generalizing front with
  | nil =>
      apply Achieves.pure
      intro w hw
      refine ⟨[], rfl, trivial, .nil, ?_⟩
      simpa [blockBytes] using hw
  | @cons e m rest ms he hrest ih =>
      have hfirst := hold.imp_right fun h => h e List.mem_cons_self
      have hlater := hold.imp_right fun h e' he' => h e' (List.mem_cons_of_mem _ he')
      apply (writeEntry_achieves hcodec he hfirst (hgrows e List.mem_cons_self)).bind
      rintro de w ⟨b, rfl, hoffset, hholds, hw⟩
      have hrun := @ih (front ++ b.bytes) hlater fun e he =>
        hgrows e (List.mem_cons_of_mem _ he)
      obtain ⟨des, w', hdes, blocks, rfl, hoffsets, hblocks, hw'⟩ := hrun w hw
      refine ⟨b.de :: blocks.map Block.de, w', ?_, b :: blocks, rfl, ⟨hoffset, ?_⟩,
        .cons hholds hblocks, ?_⟩
      · rw [bind_of_some hdes]
        rfl
      · rwa [List.length_append] at hoffsets
      · simpa [blockBytes] using hw'

theorem direntWriteCentral_achieves (de : Dirent) :
    Achieves .calm (Cursor old front []) (direntWriteCentral de) fun zip64 w =>
      zip64 = de.needsZip64 true ∧
        Cursor old (front ++ de.withWriteFlags.centralRecord) [] w := by
  apply (write_achieves_end _).next
  apply (write_achieves_end _).next
  apply (write_achieves_end _).next
  apply Achieves.pure
  intro w hw
  refine ⟨rfl, ?_⟩
  simpa [Dirent.centralRecord] using hw

theorem writeRecords_achieves (des : List Dirent) :
    Achieves .calm (Cursor old front []) (writeRecords des) fun zip64 w =>
      zip64 = (des.any fun de => de.needsZip64 true) ∧
        Cursor old (front ++ recordBytes des) [] w := by
  induction des generalizing front with
  | nil =>
      apply Achieves.pure
      intro w hw
      refine ⟨rfl, ?_⟩
      simpa [recordBytes] using hw
  | cons de rest ih =>
      apply (direntWriteCentral_achieves de).bind_value
      apply ih.bind_value
      apply Achieves.pure
      intro w hw
      refine ⟨rfl, ?_⟩
      simpa [recordBytes] using hw

theorem writeCdir_achieves (des : List Dirent) :
    Achieves .calm (Cursor old front []) (writeCdir des)
      fun _ => Cursor old (front ++ cdirBytes des front.length) [] := by
  have hlength : (front ++ recordBytes des).length - front.length = (recordBytes des).length := by
    rw [List.length_append]
    omega
  apply tellWrite_achieves.bind_value
  apply (writeRecords_achieves des).bind_value
  apply tellWrite_achieves.bind_value
  rw [hlength]
  apply (write_achieves_end _).weaken
  intro _ w hw
  rwa [cdirBytes, ← List.append_assoc]

/-- The entry loop fails where one of the headers grows. -/
theorem writeEntries_fails (hcodec : codec.Lawful) {entries : List ZipEntry}
    {modules : List Module} (hentries : List.Forall₂ (Pending codec old) entries modules)
    (hold : ∀ file ∈ old, file.length ≤ int64Max) (hgrows : ∃ e ∈ entries, e.Grows) {w : World}
    (hw : Cursor old front [] w) : (writeEntries codec entries .calm w).1 = none := by
  induction hentries generalizing front w with
  | nil =>
      obtain ⟨e, he, -⟩ := hgrows
      cases he
  | @cons e m rest ms he hrest ih =>
      unfold writeEntries
      by_cases hfirst : e.Grows
      · have herror := writeEntry_fails hcodec he hfirst hw
        rw [bind_of_none (show writeEntry codec e .calm w = (none, _) from Prod.ext herror rfl)]
      · obtain ⟨de, w', hrun, b, -, -, -, hw'⟩ :=
          writeEntry_achieves hcodec he (Or.inl hold) hfirst w hw
        have hlater : ∃ e ∈ rest, e.Grows := by
          obtain ⟨e', he', hgrows⟩ := hgrows
          rcases List.mem_cons.mp he' with rfl | he'
          · exact absurd hgrows hfirst
          · exact ⟨e', he', hgrows⟩
        have herror := ih hlater hw'
        rw [bind_of_some hrun,
          bind_of_none (show writeEntries codec rest .calm w' = (none, _) from Prod.ext herror rfl)]

/-! ## The draft -/

/-- Everything of `zip_close` before the commit, when there is something to write. -/
def draft (codec : Codec) (za : Zip) : CloseM (List Dirent) := do
  beginWrite
  za.prefixdata.elim (pure ()) write
  let des ← writeEntries codec za.survivors
  writeCdir des
  return des

theorem writePrefix_achieves (prefixdata : Option Text) :
    Achieves .calm (Cursor old [] []) (prefixdata.elim (pure ()) write : CloseM Unit)
      fun _ => Cursor old (prefixdata.getD []) [] := by
  cases prefixdata with
  | none => exact Achieves.pure fun _ hw => hw
  | some bytes => exact write_achieves_end bytes

/-- The temporary output becomes an archive of blocks that hold the modules. -/
theorem draft_achieves (hcodec : codec.Lawful) {za : Zip} {modules : List Module}
    (hentries : List.Forall₂ (Pending codec old) za.survivors modules)
    (hold : (∀ file ∈ old, file.length ≤ int64Max) ∨ ∀ e ∈ za.survivors, e.orig = none)
    (hgrows : ∀ e ∈ za.survivors, ¬ e.Grows) :
    Achieves .calm (fun w => w.file = old) (draft codec za) fun des w =>
      ∃ blocks : List Block, blocks.map Block.de = des ∧
        Consecutive (za.prefixdata.getD []).length blocks ∧
        List.Forall₂ (Block.Holds codec) blocks modules ∧
        Cursor old (archiveBytes (za.prefixdata.getD []) blocks) [] w := by
  apply beginWrite_achieves.next
  apply (writePrefix_achieves _).next
  apply (writeEntries_achieves hcodec hentries hold hgrows).bind
  rintro des w ⟨blocks, rfl, hoffsets, hholds, hw⟩
  have hcdir := writeCdir_achieves (blocks.map Block.de) w hw
  obtain ⟨_, w', hrun, hw'⟩ := hcdir
  rw [bind_of_some hrun]
  exact ⟨_, w', rfl, blocks, rfl, hoffsets, hholds, hw'⟩

/-- An entry whose header grows makes the draft fail. -/
theorem draft_fails (hcodec : codec.Lawful) {za : Zip} {modules : List Module}
    (hentries : List.Forall₂ (Pending codec old) za.survivors modules)
    (hold : ∀ file ∈ old, file.length ≤ int64Max) (hgrows : ∃ e ∈ za.survivors, e.Grows)
    {w : World} (hw : w.file = old) : (draft codec za .calm w).1 = none := by
  obtain ⟨_, w₁, hbegin, hw₁⟩ := beginWrite_achieves w hw
  obtain ⟨_, w₂, hfront, hw₂⟩ := writePrefix_achieves za.prefixdata w₁ hw₁
  have herror := writeEntries_fails hcodec hentries hold hgrows hw₂
  unfold draft
  rw [bind_of_some hbegin, bind_of_some hfront,
    bind_of_none (show writeEntries codec za.survivors .calm w₂ = (none, _) from
      Prod.ext herror rfl)]

end Entries

end Archive
end AllvmTools
