import AllvmTools.Archive.DirentRead

/-!
# Texts of names

`_zip_string_get` on the names that are read: one that is neither ASCII nor UTF-8 is
taken for code page 437 and converted.

* `stringGet_spec` — the name of an entry that is read has a text without NUL bytes, in
  ASCII or UTF-8, so that the file list has it whole.
-/

namespace AllvmTools
namespace Archive

open Library Library.Text Library.Files

/-! ## Getting a text -/

/-- `_zip_string_get` with `ZIP_FL_ENC_RAW` or `ZIP_FL_ENC_STRICT`, if they are set: the
text and its length. -/
def stringGet (string : Option ZipString) (encRaw encStrict : Bool) : Option (Bytes × Nat) :=
  match string with
  | none => some ([], 0)
  | some s =>
      if encRaw then
        some (s.raw, s.raw.length)
      else
        match s.guess with
        | .ascii | .utf8Known => some (s.raw, s.raw.length)
        | .utf8Guessed =>
            if encStrict then cp437ToUtf8 s.raw else some (s.raw, s.raw.length)
        | .cp437 => cp437ToUtf8 s.raw

/-! ## Strings that are read -/

/-- A string that is not empty and has no NUL byte; a recorded encoding agrees with
the one that would be guessed. -/
structure ZipString.Sound (s : ZipString) : Prop where
  nonempty : s.raw ≠ []
  noNul : 0 ∉ s.raw
  guess : s.guess = .cp437 ↔ guessEncoding s.raw = .cp437

theorem ZipString.Sound.of_encoding {raw : Bytes} {enc : Encoding} (hne : raw ≠ [])
    (henc : enc ≠ .cp437) (hguess : guessEncoding raw ≠ .cp437) :
    (ZipString.mk raw (some enc)).Sound :=
  ⟨hne, zero_notMem_of_guessEncoding hguess, ⟨fun h => absurd h henc, fun h => absurd h hguess⟩⟩

theorem ZipString.sound_of_expectUtf8 {raw : Bytes} {s : ZipString} (hne : raw ≠ [])
    (h : (ZipString.mk raw none).expectUtf8 = some s) : s.Sound := by
  unfold expectUtf8 guess at h
  rw [Option.getD_none] at h
  cases hguess : guessEncoding raw with
  | cp437 =>
      rw [hguess] at h
      cases h
  | ascii | utf8Guessed | utf8Known =>
      rw [hguess] at h
      cases h
      exact .of_encoding hne Encoding.noConfusion (by rw [hguess]; exact Encoding.noConfusion)

theorem sound_of_stringOf {bitflags : Nat} {raw : Bytes} {s : ZipString} (hnul : 0 ∉ raw)
    (h : stringOf bitflags raw = .ok (some s)) : s.Sound := by
  unfold stringOf at h
  split at h
  · cases h
  next hne =>
  split at h
  · split at h
    · cases h
    next s' hs =>
      cases h
      exact ZipString.sound_of_expectUtf8 hne hs
  · cases h
    exact ⟨hne, hnul, Iff.rfl⟩

theorem sound_of_zipStringNew {name raw : Text} {enc : Encoding}
    (h : zipStringNew name = some (raw, enc)) : (ZipString.mk raw (some enc)).Sound := by
  unfold zipStringNew at h
  dsimp only at h
  split at h
  · cases h
  next hne =>
  split at h
  · next hguess =>
      cases h
      exact .of_encoding hne Encoding.noConfusion (by rw [hguess]; exact Encoding.noConfusion)
  · next hguess =>
      cases h
      exact .of_encoding hne Encoding.noConfusion (by rw [hguess]; exact Encoding.noConfusion)
  · cases h

/-- A Unicode extra field keeps names sound. -/
theorem sound_of_processEfUtf8 {efs : List ExtraField} {id : Nat} {str : Option ZipString}
    (hstr : ∀ s ∈ str, s.Sound) : ∀ s ∈ processEfUtf8 efs id str, s.Sound := by
  intro s hs
  unfold processEfUtf8 at hs
  split at hs
  · exact hstr s hs
  split at hs
  · exact hstr s hs
  dsimp only at hs
  split at hs
  · split at hs
    · exact hstr s hs
    next raw enc hnew =>
      cases hs
      exact sound_of_zipStringNew hnew
  · exact hstr s hs

theorem eq_of_ite_eq_ok {c : Prop} [Decidable c] {de de' : ReadDirent} {e : ZipError}
    (h : (if c then Except.ok de else .error e) = .ok de') : de' = de := by
  split at h
  · cases h
    rfl
  · cases h

theorem filename_zip64 {isLocal : Bool} {de de' : ReadDirent} (h : de.zip64 isLocal = .ok de') :
    de'.filename = de.filename := by
  unfold ReadDirent.zip64 at h
  split at h
  · split at h
    · cases h
    · rw [eq_of_ite_eq_ok h]
  · cases h
    rfl

theorem filename_processWinzipAes {de de' : ReadDirent} (h : de.processWinzipAes = .ok de') :
    de'.filename = de.filename := by
  unfold ReadDirent.processWinzipAes at h
  split at h
  · cases h
    rfl
  split at h
  · cases h
  split at h
  · cases h
  dsimp only at h
  split at h
  · cases h
  split at h
  · cases h
  split at h
  · cases h
  split at h
  · cases h
  · cases h
    rfl

theorem filename_finish {isLocal ok : Bool} {de de' : ReadDirent}
    (h : de.finish isLocal ok = .ok de') : de'.filename = de.filename := by
  unfold ReadDirent.finish at h
  split at h
  · cases h
  next dirent hzip64 =>
  split at h
  · cases h
  split at h
  · cases h
  split at h
  · cases h
  next dirent' haes =>
    cases h
    exact (filename_processWinzipAes haes).trans (filename_zip64 hzip64)

/-- The name of an entry that is read is sound. -/
theorem sound_of_direntRead {calendar : Calendar} {fromBuffer isLocal : Bool} {bytes : Bytes}
    {de : ReadDirent} {n : Nat} (h : direntRead calendar fromBuffer isLocal bytes = .ok (de, n)) :
    ∀ s ∈ de.filename, s.Sound := by
  obtain ⟨r, -, hread, -⟩ := (direntRead_eq_ok_iff calendar fromBuffer isLocal bytes de n).mp h
  unfold RawRecord.read RawRecord.parts at hread
  cases hname : stringOf r.fields.bitflags (blankNul r.name) with
  | error e =>
      rw [hname] at hread
      cases hread
  | ok filename =>
      rw [hname] at hread
      cases hefs : efParse (.of isLocal) r.extra with
      | error e =>
          rw [hefs] at hread
          cases hread
      | ok efs =>
          rw [hefs] at hread
          cases hcomment : stringOf r.fields.bitflags r.comment with
          | error e =>
              rw [hcomment] at hread
              cases hread
          | ok comment =>
              rw [hcomment] at hread
              rw [filename_finish hread]
              refine sound_of_processEfUtf8 fun s hs => ?_
              subst hs
              refine sound_of_stringOf ?_ hname
              intro hzero
              obtain ⟨b, -, hb⟩ := List.mem_map.mp hzero
              split at hb
              · cases hb
              next hne => exact hne hb

/-- What is no code page 437 can be the name of a new entry. -/
theorem exists_zipStringNew {text : Text} (hne : text ≠ []) (hlength : text.length < 2 ^ 16)
    (hguess : guessEncoding text ≠ .cp437) : ∃ enc, zipStringNew text = some (text, enc) := by
  unfold zipStringNew
  rw [Nat.mod_eq_of_lt hlength, List.take_length]
  dsimp only
  rw [if_neg hne]
  cases hcase : guessEncoding text with
  | ascii | utf8Guessed => exact ⟨_, rfl⟩
  | utf8Known => exact absurd hcase (guessEncoding_ne_utf8Known text)
  | cp437 => exact absurd hcase hguess

/-- `_zip_string_get` converts the string. -/
def ZipString.isConverted (s : ZipString) (encStrict : Bool) : Bool :=
  decide (s.guess = .cp437) || (encStrict && decide (s.guess = .utf8Guessed))

/-- The text of a string. -/
def ZipString.text (s : ZipString) (encStrict : Bool) : Bytes :=
  if s.isConverted encStrict then cp437Bytes s.raw else s.raw

namespace ZipString.Sound

variable {s : ZipString}

theorem cp437ToUtf8_raw (h : s.Sound) :
    cp437ToUtf8 s.raw = some (cp437Bytes s.raw, (cp437Bytes s.raw).length) := by
  rw [cp437ToUtf8, if_neg h.nonempty, length_cp437Bytes]

theorem stringGet_eq (h : s.Sound) (encStrict : Bool) :
    stringGet (some s) false encStrict = some (s.text encStrict, (s.text encStrict).length) := by
  unfold stringGet text isConverted
  cases hguess : s.guess with
  | ascii | utf8Known => simp [hguess]
  | utf8Guessed => cases encStrict <;> simp [hguess, h.cp437ToUtf8_raw]
  | cp437 => simp [hguess, h.cp437ToUtf8_raw]

theorem guessEncoding_text (h : s.Sound) (encStrict : Bool) :
    guessEncoding (s.text encStrict) ≠ .cp437 := by
  unfold text
  split
  · exact mt (guessEncoding_cp437Bytes s.raw).mp h.noNul
  next hraw =>
    intro hguess
    exact hraw (by simp [isConverted, h.guess.mpr hguess])

theorem text_ne_nil (h : s.Sound) (encStrict : Bool) : s.text encStrict ≠ [] := by
  unfold text
  split
  · intro hnil
    exact h.nonempty (cp437Bytes_injective hnil)
  · exact h.nonempty

end ZipString.Sound

/-- **Names of an archive**: whatever is read as an entry, its name has a text, in which
no NUL byte stands, which is taken for ASCII or UTF-8, and which an entry can be added
with if it is short enough. -/
theorem stringGet_spec {calendar : Calendar} {fromBuffer isLocal : Bool} {bytes : Bytes}
    {de : ReadDirent} {n : Nat} (h : direntRead calendar fromBuffer isLocal bytes = .ok (de, n))
    (encStrict : Bool) {s : ZipString} (hs : de.filename = some s) :
    stringGet de.filename false encStrict = some (s.text encStrict, (s.text encStrict).length) ∧
      s.text encStrict ≠ [] ∧ 0 ∉ s.text encStrict ∧
      guessEncoding (s.text encStrict) ≠ .cp437 ∧
      ((s.text encStrict).length < 2 ^ 16 →
        ∃ enc, zipStringNew (s.text encStrict) = some (s.text encStrict, enc)) := by
  have hsound := sound_of_direntRead h s hs
  have hguess := hsound.guessEncoding_text encStrict
  have hne := hsound.text_ne_nil encStrict
  rw [hs]
  exact ⟨hsound.stringGet_eq encStrict, hne, zero_notMem_of_guessEncoding hguess, hguess,
    fun hlength => exists_zipStringNew hne hlength hguess⟩

/-- A local header whose name is one byte of the code page. -/
def accentHeader : Bytes :=
  localMagic ++ List.replicate 22 0 ++ [1, 0, 0, 0, 0x82]

/-- The byte is an `é`. -/
theorem text_accent : ZipString.text ⟨[0x82], none⟩ false = [0xC3, 0xA9] := by
  have hguess : guessEncoding [0x82] = .cp437 := by
    rw [guessEncoding]
    rfl
  simp [ZipString.text, ZipString.isConverted, ZipString.guess, hguess]
  decide

theorem stringGet_spec_accent :
    ∃ de, direntRead firstDay false true accentHeader = .ok (de, 31) ∧
      stringGet de.filename false false = some ([0xC3, 0xA9], 2) ∧
      guessEncoding [0xC3, 0xA9] ≠ .cp437 := by
  have hread : ∃ de, direntRead firstDay false true accentHeader = .ok (de, 31) ∧
      de.filename = some ⟨[0x82], none⟩ := ⟨_, rfl, rfl⟩
  obtain ⟨de, hread, hname⟩ := hread
  obtain ⟨hget, -, -, hguess, -⟩ := stringGet_spec hread false hname
  rw [text_accent] at hget hguess
  exact ⟨de, hread, hget, hguess⟩

end Archive
end AllvmTools
