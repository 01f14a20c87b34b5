import AllvmTools.Archive.Dirent

/-!
# The encoding of names

What `zip_utf-8.c` takes a name for, and its conversion of a name that is neither ASCII
nor UTF-8 from code page 437.

* `cp437ToUtf8_spec` — the conversion is the UTF-8 encoding of the characters of the
  code page, is as long as was reckoned, and loses nothing.
* `cp437Bytes_eq_self_iff` — it changes every name but those of printable characters.
-/

namespace AllvmTools
namespace Archive

open Library Library.Text Library.Files

/-! ## Guessing -/

/-- The number of continuation bytes a first byte announces. -/
def utf8Continuation (b : UInt8) : Option Nat :=
  if b &&& 0xE0 = 0xC0 then some 1
  else if b &&& 0xF0 = 0xE0 then some 2
  else if b &&& 0xF8 = 0xF0 then some 3
  else none

/-- A byte that leaves a name ASCII. -/
def isPlainByte (b : UInt8) : Bool :=
  (decide (31 < b) && decide (b < 128)) || b == 13 || b == 10 || b == 9

/-- `_zip_guess_encoding` of a name nothing is known of. -/
def guessEncoding : Text → Encoding
  | [] => .ascii
  | b :: rest =>
      if isPlainByte b then
        guessEncoding rest
      else
        match utf8Continuation b with
        | none => .cp437
        | some n =>
            if rest.length < n ∨ ¬ (rest.take n).all (fun c => c &&& 0xC0 == 0x80) then
              .cp437
            else
              match guessEncoding (rest.drop n) with
              | .ascii => .utf8Guessed
              | enc => enc
termination_by name => name.length
decreasing_by
  · simp
  · simp only [List.length_drop, List.length_cons]
    omega

theorem guessEncoding_eq_ascii {name : Text} (h : name.all isPlainByte = true) :
    guessEncoding name = .ascii := by
  induction name with
  | nil => rw [guessEncoding]
  | cons b rest ih =>
      rw [List.all_cons, Bool.and_eq_true] at h
      rw [guessEncoding, if_pos h.1, ih h.2]

/-! ## The conversion -/

/-- `_cp437_to_unicode`. -/
def cp437ToUnicode : List Nat :=
  [0x0000, 0x263A, 0x263B, 0x2665, 0x2666, 0x2663, 0x2660, 0x2022,
    0x25D8, 0x25CB, 0x25D9, 0x2642, 0x2640, 0x266A, 0x266B, 0x263C,
    0x25BA, 0x25C4, 0x2195, 0x203C, 0x00B6, 0x00A7, 0x25AC, 0x21A8,
    0x2191, 0x2193, 0x2192, 0x2190, 0x221F, 0x2194, 0x25B2, 0x25BC,
    0x0020, 0x0021, 0x0022, 0x0023, 0x0024, 0x0025, 0x0026, 0x0027,
    0x0028, 0x0029, 0x002A, 0x002B, 0x002C, 0x002D, 0x002E, 0x002F,
    0x0030, 0x0031, 0x0032, 0x0033, 0x0034, 0x0035, 0x0036, 0x0037,
    0x0038, 0x0039, 0x003A, 0x003B, 0x003C, 0x003D, 0x003E, 0x003F,
    0x0040, 0x0041, 0x0042, 0x0043, 0x0044, 0x0045, 0x0046, 0x0047,
    0x0048, 0x0049, 0x004A, 0x004B, 0x004C, 0x004D, 0x004E, 0x004F,
    0x0050, 0x0051, 0x0052, 0x0053, 0x0054, 0x0055, 0x0056, 0x0057,
    0x0058, 0x0059, 0x005A, 0x005B, 0x005C, 0x005D, 0x005E, 0x005F,
    0x0060, 0x0061, 0x0062, 0x0063, 0x0064, 0x0065, 0x0066, 0x0067,
    0x0068, 0x0069, 0x006A, 0x006B, 0x006C, 0x006D, 0x006E, 0x006F,
    0x0070, 0x0071, 0x0072, 0x0073, 0x0074, 0x0075, 0x0076, 0x0077,
    0x0078, 0x0079, 0x007A, 0x007B, 0x007C, 0x007D, 0x007E, 0x2302,
    0x00C7, 0x00FC, 0x00E9, 0x00E2, 0x00E4, 0x00E0, 0x00E5, 0x00E7,
    0x00EA, 0x00EB, 0x00E8, 0x00EF, 0x00EE, 0x00EC, 0x00C4, 0x00C5,
    0x00C9, 0x00E6, 0x00C6, 0x00F4, 0x00F6, 0x00F2, 0x00FB, 0x00F9,
    0x00FF, 0x00D6, 0x00DC, 0x00A2, 0x00A3, 0x00A5, 0x20A7, 0x0192,
    0x00E1, 0x00ED, 0x00F3, 0x00FA, 0x00F1, 0x00D1, 0x00AA, 0x00BA,
    0x00BF, 0x2310, 0x00AC, 0x00BD, 0x00BC, 0x00A1, 0x00AB, 0x00BB,
    0x2591, 0x2592, 0x2593, 0x2502, 0x2524, 0x2561, 0x2562, 0x2556,
    0x2555, 0x2563, 0x2551, 0x2557, 0x255D, 0x255C, 0x255B, 0x2510,
    0x2514, 0x2534, 0x252C, 0x251C, 0x2500, 0x253C, 0x255E, 0x255F,
    0x255A, 0x2554, 0x2569, 0x2566, 0x2560, 0x2550, 0x256C, 0x2567,
    0x2568, 0x2564, 0x2565, 0x2559, 0x2558, 0x2552, 0x2553, 0x256B,
    0x256A, 0x2518, 0x250C, 0x2588, 0x2584, 0x258C, 0x2590, 0x2580,
    0x03B1, 0x00DF, 0x0393, 0x03C0, 0x03A3, 0x03C3, 0x00B5, 0x03C4,
    0x03A6, 0x0398, 0x03A9, 0x03B4, 0x221E, 0x03C6, 0x03B5, 0x2229,
    0x2261, 0x00B1, 0x2265, 0x2264, 0x2320, 0x2321, 0x00F7, 0x2248,
    0x00B0, 0x2219, 0x00B7, 0x221A, 0x207F, 0x00B2, 0x25A0, 0x00A0]

/-- The code point of a byte. -/
def codePoint (b : UInt8) : Nat :=
  cp437ToUnicode.getD b.toNat 0

/-- `_zip_unicode_to_utf8_len`. -/
def unicodeToUtf8Len (codepoint : Nat) : Nat :=
  if codepoint < 0x80 then 1
  else if codepoint < 0x800 then 2
  else if codepoint < 0x10000 then 3
  else 4

/-- A continuation byte, of the lowest six bits. -/
def continuation (bits : Nat) : UInt8 :=
  UInt8.ofNat (0x80 ||| (bits &&& 0x3F))

/-- `_zip_unicode_to_utf8`. -/
def unicodeToUtf8 (codepoint : Nat) : Bytes :=
  if codepoint < 0x80 then
    [UInt8.ofNat (codepoint &&& 0xFF)]
  else if codepoint < 0x800 then
    [UInt8.ofNat (0xC0 ||| (codepoint >>> 6 &&& 0x1F)), continuation codepoint]
  else if codepoint < 0x10000 then
    [UInt8.ofNat (0xE0 ||| (codepoint >>> 12 &&& 0x0F)), continuation (codepoint >>> 6),
      continuation codepoint]
  else
    [UInt8.ofNat (0xF0 ||| (codepoint >>> 18 &&& 0x07)), continuation (codepoint >>> 12),
      continuation (codepoint >>> 6), continuation codepoint]

/-- `buflen` of `_zip_cp437_to_utf8`, without the byte for the terminator. -/
def cp437Length (cp437 : Bytes) : Nat :=
  (cp437.map fun b => unicodeToUtf8Len (codePoint b)).sum

/-- What `_zip_cp437_to_utf8` writes into its buffer, in front of the terminator. -/
def cp437Bytes (cp437 : Bytes) : Bytes :=
  cp437.flatMap fun b => unicodeToUtf8 (codePoint b)

/-- `_zip_cp437_to_utf8`: the text and the length that is returned with it; a name has
less than 2 ^ 16 bytes, so that no length overflows. -/
def cp437ToUtf8 (cp437 : Bytes) : Option (Bytes × Nat) :=
  if cp437 = [] then none else some (cp437Bytes cp437, cp437Length cp437)

/-! ## Code points -/

theorem length_unicodeToUtf8 (codepoint : Nat) :
    (unicodeToUtf8 codepoint).length = unicodeToUtf8Len codepoint := by
  unfold unicodeToUtf8 unicodeToUtf8Len
  split
  · rfl
  · split
    · rfl
    · split
      · rfl
      · rfl

/-- Bits behind a mark that leaves room for them. -/
theorem mark_or_bits (mark width x : Nat) :
    2 ^ width * mark ||| (x &&& (2 ^ width - 1)) = x % 2 ^ width + 2 ^ width * mark := by
  rw [Nat.and_two_pow_sub_one_eq_mod, Nat.add_comm,
    Nat.two_pow_add_eq_or_of_lt (Nat.mod_lt x (Nat.two_pow_pos width))]

theorem continuation_eq (bits : Nat) :
    continuation bits = UInt8.ofNat (bits % 0x40 + 0x80) :=
  congrArg UInt8.ofNat (mark_or_bits 2 6 bits)

/-- The source's encoder is that of the standard library. -/
theorem unicodeToUtf8_eq (c : Char) : unicodeToUtf8 c.toNat = String.utf8EncodeChar c := by
  have hlead₂ : 0xC0 ||| (c.toNat >>> 6 &&& 0x1F) = c.toNat / 64 % 0x20 + 0xC0 := by
    rw [Nat.shiftRight_eq_div_pow]
    exact mark_or_bits 6 5 (c.toNat / 64)
  have hlead₃ : 0xE0 ||| (c.toNat >>> 12 &&& 0x0F) = c.toNat / 4096 % 0x10 + 0xE0 := by
    rw [Nat.shiftRight_eq_div_pow]
    exact mark_or_bits 14 4 (c.toNat / 4096)
  have hlead₄ : 0xF0 ||| (c.toNat >>> 18 &&& 0x07) = c.toNat / 262144 % 0x08 + 0xF0 := by
    rw [Nat.shiftRight_eq_div_pow]
    exact mark_or_bits 30 3 (c.toNat / 262144)
  unfold unicodeToUtf8 String.utf8EncodeChar
  rw [hlead₂, hlead₃, hlead₄]
  simp only [continuation_eq, Nat.shiftRight_eq_div_pow]
  show _ = if c.toNat ≤ 0x7F then _ else if c.toNat ≤ 0x7FF then _ else if c.toNat ≤ 0xFFFF then _
    else _
  by_cases hone : c.toNat < 0x80
  · have hmask : c.toNat &&& 0xFF = c.toNat % 2 ^ 8 := Nat.and_two_pow_sub_one_eq_mod c.toNat 8
    rw [if_pos hone, if_pos (show c.toNat ≤ 0x7F by omega), hmask, Nat.mod_eq_of_lt (by omega)]
    rfl
  · rw [if_neg hone, if_neg (show ¬ c.toNat ≤ 0x7F by omega)]
    by_cases htwo : c.toNat < 0x800
    · rw [if_pos htwo, if_pos (show c.toNat ≤ 0x7FF by omega)]
      rfl
    · rw [if_neg htwo, if_neg (show ¬ c.toNat ≤ 0x7FF by omega)]
      by_cases hthree : c.toNat < 0x10000
      · rw [if_pos hthree, if_pos (show c.toNat ≤ 0xFFFF by omega)]
        rfl
      · rw [if_neg hthree, if_neg (show ¬ c.toNat ≤ 0xFFFF by omega)]
        rfl

/-! ## Guessing the encoding of a text -/

/-- What a text is taken for behind a character of more than one byte. -/
def Encoding.wide : Encoding → Encoding
  | .ascii => .utf8Guessed
  | enc => enc

theorem Encoding.wide_eq_cp437_iff (enc : Encoding) : enc.wide = .cp437 ↔ enc = .cp437 := by
  cases enc <;> simp [wide]

theorem isContinuation_continuation (bits : Nat) :
    (continuation bits &&& 0xC0 == 0x80) = true := by
  have hall : ∀ low < 0x40, (UInt8.ofNat (low + 0x80) &&& 0xC0 == 0x80) = true := by decide
  rw [continuation_eq]
  exact hall (bits % 0x40) (Nat.mod_lt bits (by decide))

/-- A first byte that announces `n` continuation bytes, which are there. -/
theorem guessEncoding_of_lead {b : UInt8} {n : Nat} {rest : Bytes} (hplain : ¬ isPlainByte b = true)
    (hlead : utf8Continuation b = some n)
    (hinside : ¬ (rest.length < n ∨ ¬ (rest.take n).all (fun c => c &&& 0xC0 == 0x80) = true)) :
    guessEncoding (b :: rest) = (guessEncoding (rest.drop n)).wide := by
  rw [guessEncoding, if_neg hplain, hlead]
  dsimp only
  rw [if_neg hinside]
  cases guessEncoding (rest.drop n) <;> rfl

theorem guessEncoding_lead {b : UInt8} {n : Nat} (hplain : isPlainByte b = false)
    (hlead : utf8Continuation b = some n) {tail : Bytes} (htail : tail.length = n)
    (hall : tail.all (fun c => c &&& 0xC0 == 0x80) = true) (rest : Bytes) :
    guessEncoding (b :: tail ++ rest) = (guessEncoding rest).wide := by
  subst htail
  have hinside : ¬ ((tail ++ rest).length < tail.length ∨
      ¬ ((tail ++ rest).take tail.length).all (fun c => c &&& 0xC0 == 0x80) = true) := by
    rw [List.take_left, hall, List.length_append]
    simp
  rw [List.cons_append, guessEncoding_of_lead (by simp [hplain]) hlead hinside, List.drop_left]

/-- First bytes with the mark of their form. -/
theorem lead_mark (mark width n : Nat)
    (hall : ∀ low < 2 ^ width, isPlainByte (UInt8.ofNat (low + 2 ^ width * mark)) = false ∧
      utf8Continuation (UInt8.ofNat (low + 2 ^ width * mark)) = some n) (bits : Nat) :
    isPlainByte (UInt8.ofNat (2 ^ width * mark ||| (bits &&& (2 ^ width - 1)))) = false ∧
      utf8Continuation (UInt8.ofNat (2 ^ width * mark ||| (bits &&& (2 ^ width - 1)))) =
        some n := by
  rw [mark_or_bits]
  exact hall _ (Nat.mod_lt bits (Nat.two_pow_pos width))

theorem lead_two (bits : Nat) :
    isPlainByte (UInt8.ofNat (0xC0 ||| (bits &&& 0x1F))) = false ∧
      utf8Continuation (UInt8.ofNat (0xC0 ||| (bits &&& 0x1F))) = some 1 :=
  lead_mark 6 5 1 (by decide) bits

theorem lead_three (bits : Nat) :
    isPlainByte (UInt8.ofNat (0xE0 ||| (bits &&& 0x0F))) = false ∧
      utf8Continuation (UInt8.ofNat (0xE0 ||| (bits &&& 0x0F))) = some 2 :=
  lead_mark 14 4 2 (by decide) bits

theorem lead_four (bits : Nat) :
    isPlainByte (UInt8.ofNat (0xF0 ||| (bits &&& 0x07))) = false ∧
      utf8Continuation (UInt8.ofNat (0xF0 ||| (bits &&& 0x07))) = some 3 :=
  lead_mark 30 3 3 (by decide) bits

/-- A code point that is no control character is guessed right. -/
theorem guessEncoding_unicodeToUtf8 {codepoint : Nat} (hlow : 32 ≤ codepoint) (rest : Bytes) :
    guessEncoding (unicodeToUtf8 codepoint ++ rest) =
      if codepoint < 0x80 then guessEncoding rest else (guessEncoding rest).wide := by
  unfold unicodeToUtf8
  by_cases hone : codepoint < 0x80
  · have hall : ∀ b < 0x80, 32 ≤ b → isPlainByte (UInt8.ofNat (b &&& 0xFF)) = true := by
      decide +kernel
    rw [if_pos hone, if_pos hone, List.singleton_append, guessEncoding,
      if_pos (hall codepoint hone hlow)]
  · rw [if_neg hone, if_neg hone]
    split
    · obtain ⟨hplain, hlead⟩ := lead_two (codepoint >>> 6)
      exact guessEncoding_lead hplain hlead rfl (by simp [isContinuation_continuation]) rest
    · split
      · obtain ⟨hplain, hlead⟩ := lead_three (codepoint >>> 12)
        exact guessEncoding_lead hplain hlead rfl (by simp [isContinuation_continuation]) rest
      · obtain ⟨hplain, hlead⟩ := lead_four (codepoint >>> 18)
        exact guessEncoding_lead hplain hlead rfl (by simp [isContinuation_continuation]) rest

/-! ## Code page 437 -/

/-- The code points of the bytes but zero are no control characters, and are characters
of the basic plane. -/
theorem codePoint_spec {b : UInt8} (hb : b ≠ 0) :
    32 ≤ codePoint b ∧ codePoint b < 0x2700 := by
  have htable : cp437ToUnicode = 0 :: cp437ToUnicode.tail := rfl
  have hall : ∀ c ∈ cp437ToUnicode.tail, 32 ≤ c ∧ c < 0x2700 := by decide +kernel
  have hlength : cp437ToUnicode.tail.length = 255 := by decide +kernel
  obtain ⟨n, hn⟩ := Nat.exists_eq_succ_of_ne_zero fun hzero => hb (UInt8.toNat_inj.mp hzero)
  have hlt : n < cp437ToUnicode.tail.length := by
    have hbyte := b.toNat_lt
    omega
  rw [codePoint, hn, htable, List.getD_cons_succ, List.getD_eq_getElem?_getD,
    List.getElem?_eq_getElem hlt, Option.getD_some]
  exact hall _ (List.getElem_mem hlt)

theorem codePoint_injective : Function.Injective codePoint := by
  have hnodup : cp437ToUnicode.Nodup := by decide +kernel
  have hlength : cp437ToUnicode.length = 256 := by decide +kernel
  intro b b' h
  have hb : b.toNat < cp437ToUnicode.length := hlength ▸ b.toNat_lt
  have hb' : b'.toNat < cp437ToUnicode.length := hlength ▸ b'.toNat_lt
  exact UInt8.toNat_inj.mp ((List.getD_inj hb hb' hnodup).mp h)

/-- The character of a byte. -/
def cp437Char (b : UInt8) : Char :=
  Char.ofNat (codePoint b)

theorem toNat_cp437Char (b : UInt8) : (cp437Char b).toNat = codePoint b := by
  have hvalid : (codePoint b).isValidChar := by
    by_cases hb : b = 0
    · subst hb
      exact Or.inl (by decide)
    · have hhigh := (codePoint_spec hb).2
      exact Or.inl (by omega)
  rw [cp437Char, Char.ofNat, dif_pos hvalid]
  rfl

/-- The bytes that are written are those of the characters. -/
theorem cp437Bytes_eq (cp437 : Bytes) :
    (cp437Bytes cp437).toByteArray = (String.ofList (cp437.map cp437Char)).toByteArray := by
  rw [String.toByteArray_ofList, List.utf8Encode, cp437Bytes, List.flatMap_map]
  simp only [← unicodeToUtf8_eq, toNat_cp437Char]

theorem length_cp437Bytes (cp437 : Bytes) : (cp437Bytes cp437).length = cp437Length cp437 := by
  rw [cp437Bytes, cp437Length, List.length_flatMap]
  simp only [length_unicodeToUtf8]

/-- A converted text is taken for code page 437 again only if it holds a zero byte. -/
theorem guessEncoding_cp437Bytes (cp437 : Bytes) :
    guessEncoding (cp437Bytes cp437) = .cp437 ↔ 0 ∈ cp437 := by
  induction cp437 with
  | nil => simp [cp437Bytes, guessEncoding]
  | cons b rest ih =>
      rw [cp437Bytes, List.flatMap_cons]
      by_cases hb : b = 0
      · -- the code point of zero is a control character
        subst hb
        have hzero : unicodeToUtf8 (codePoint 0) = [0] := by decide
        rw [hzero, List.singleton_append, guessEncoding]
        simp [show isPlainByte 0 = false from rfl, show utf8Continuation 0 = none from rfl]
      · rw [guessEncoding_unicodeToUtf8 (codePoint_spec hb).1, List.mem_cons]
        rw [cp437Bytes] at ih
        split
        · simp [ih, Ne.symm hb]
        · simp [Encoding.wide_eq_cp437_iff, ih, Ne.symm hb]

theorem cp437Bytes_injective : Function.Injective cp437Bytes := by
  intro cp437 cp437' h
  have hchars : cp437.map cp437Char = cp437'.map cp437Char := by
    apply String.ofList_injective
    apply String.toByteArray_inj.mp
    rw [← cp437Bytes_eq, ← cp437Bytes_eq, h]
  refine List.map_injective_iff.mpr (fun b b' hchar => codePoint_injective ?_) hchars
  rw [← toNat_cp437Char, ← toNat_cp437Char, hchar]

/-- A NUL byte or a printable ASCII character: code page 437 and UTF-8 agree on it. -/
def isFixedByte (b : UInt8) : Bool :=
  b == 0 || (decide (32 ≤ b) && decide (b < 127))

theorem codePoint_of_isFixedByte (b : UInt8) :
    if isFixedByte b then codePoint b = b.toNat else 0x80 ≤ codePoint b := by
  have hall : ∀ n < 256, if isFixedByte (UInt8.ofNat n) then cp437ToUnicode.getD n 0 = n
      else 0x80 ≤ cp437ToUnicode.getD n 0 := by
    decide +kernel
  have hb := hall b.toNat b.toNat_lt
  rwa [UInt8.ofNat_toNat] at hb

/-- The first byte of a longer form is not plain. -/
theorem unicodeToUtf8_wide {codepoint : Nat} (hwide : 0x80 ≤ codepoint) :
    1 < (unicodeToUtf8 codepoint).length ∧
      (unicodeToUtf8 codepoint).all isPlainByte = false := by
  unfold unicodeToUtf8
  rw [if_neg (by omega)]
  split
  · refine ⟨Nat.one_lt_two, ?_⟩
    rw [List.all_cons, (lead_two _).1, Bool.false_and]
  · split
    · refine ⟨by simp, ?_⟩
      rw [List.all_cons, (lead_three _).1, Bool.false_and]
    · refine ⟨by simp, ?_⟩
      rw [List.all_cons, (lead_four _).1, Bool.false_and]

theorem unicodeToUtf8_codePoint (b : UInt8) :
    if isFixedByte b then unicodeToUtf8 (codePoint b) = [b]
    else 1 < (unicodeToUtf8 (codePoint b)).length ∧
      (unicodeToUtf8 (codePoint b)).all isPlainByte = false := by
  have hpoint := codePoint_of_isFixedByte b
  split at hpoint
  · next hfixed =>
    rw [if_pos hfixed, hpoint]
    have hlow : b.toNat < 0x80 := by
      have hcases : b = 0 ∨ 32 ≤ b ∧ b < 127 := by simpa [isFixedByte] using hfixed
      rcases hcases with rfl | ⟨-, hlt⟩
      · decide
      · exact (UInt8.lt_iff_toNat_lt.mp hlt).trans (by decide)
    rw [unicodeToUtf8, if_pos hlow, Nat.and_two_pow_sub_one_of_lt_two_pow (n := 8) b.toNat_lt,
      UInt8.ofNat_toNat]
  · next hother =>
    rw [if_neg hother]
    exact unicodeToUtf8_wide hpoint

theorem length_le_length_cp437Bytes (cp437 : Bytes) :
    cp437.length ≤ (cp437Bytes cp437).length := by
  induction cp437 with
  | nil => exact Nat.le_refl 0
  | cons b rest ih =>
      have hone : 1 ≤ (unicodeToUtf8 (codePoint b)).length := by
        rw [length_unicodeToUtf8, unicodeToUtf8Len]
        grind
      rw [cp437Bytes] at ih ⊢
      rw [List.flatMap_cons, List.length_append, List.length_cons]
      omega

/-- The conversion changes every name but those of fixed bytes. -/
theorem cp437Bytes_eq_self_iff (cp437 : Bytes) :
    cp437Bytes cp437 = cp437 ↔ ∀ b ∈ cp437, isFixedByte b = true := by
  induction cp437 with
  | nil => simp [cp437Bytes]
  | cons b rest ih =>
      have hbyte := unicodeToUtf8_codePoint b
      rw [List.forall_mem_cons, ← ih]
      unfold cp437Bytes
      rw [List.flatMap_cons]
      by_cases hfixed : isFixedByte b = true
      · rw [if_pos hfixed] at hbyte
        rw [hbyte]
        simp [hfixed]
      · rw [if_neg hfixed] at hbyte
        refine iff_of_false ?_ fun h => hfixed h.1
        -- the text is longer than the name
        intro h
        have hlength := congrArg List.length h
        have hrest := length_le_length_cp437Bytes rest
        rw [cp437Bytes] at hrest
        rw [List.length_append, List.length_cons] at hlength
        omega

/-- A plain text is not the result of a conversion that changed it. -/
theorem cp437Bytes_of_plain {cp437 : Bytes} (h : (cp437Bytes cp437).all isPlainByte = true) :
    cp437Bytes cp437 = cp437 := by
  rw [cp437Bytes_eq_self_iff]
  intro b hb
  by_contra hfixed
  have hbyte := unicodeToUtf8_codePoint b
  rw [if_neg hfixed] at hbyte
  have hplain : (unicodeToUtf8 (codePoint b)).all isPlainByte = true := by
    rw [List.all_eq_true] at h ⊢
    exact fun c hc => h c (List.mem_flatMap_of_mem hb hc)
  rw [hplain] at hbyte
  exact Bool.noConfusion hbyte.2

/-- **The conversion**: the text is the UTF-8 encoding of the characters of the code page,
has the length that is returned and that the buffer was made for, is taken for ASCII or
UTF-8 unless there is a zero byte, and is that of no other name. -/
theorem cp437ToUtf8_spec {cp437 : Bytes} (hname : cp437 ≠ []) :
    ∃ text, cp437ToUtf8 cp437 = some (text, text.length) ∧
      text.toByteArray = (String.ofList (cp437.map cp437Char)).toByteArray ∧
      (guessEncoding text = .cp437 ↔ 0 ∈ cp437) ∧
      ∀ other, cp437ToUtf8 other = some (text, text.length) → other = cp437 := by
  refine ⟨cp437Bytes cp437, ?_, cp437Bytes_eq cp437, guessEncoding_cp437Bytes cp437, ?_⟩
  · rw [cp437ToUtf8, if_neg hname, length_cp437Bytes]
  · intro other hother
    rw [cp437ToUtf8] at hother
    split at hother
    · cases hother
    · exact cp437Bytes_injective (Prod.mk.inj (Option.some.inj hother)).1

/-- The `é` and the `ü` of a name on two systems. -/
theorem cp437ToUtf8_spec_accents :
    ∃ text, cp437ToUtf8 [0x82, 0x81] = some (text, text.length) ∧
      text.toByteArray = (String.ofList ([0x82, 0x81].map cp437Char)).toByteArray ∧
      (guessEncoding text = .cp437 ↔ 0 ∈ ([0x82, 0x81] : Bytes)) ∧
      ∀ other, cp437ToUtf8 other = some (text, text.length) → other = [0x82, 0x81] :=
  cp437ToUtf8_spec (by decide)

/-! ## NUL bytes -/

/-- A NUL byte is no first byte and no continuation byte. -/
theorem zero_notMem_cons {b : UInt8} {n : Nat} {rest : Bytes} (hlead : utf8Continuation b = some n)
    (hinside : ¬ (rest.length < n ∨ ¬ (rest.take n).all (fun c => c &&& 0xC0 == 0x80) = true))
    (hrest : 0 ∉ rest.drop n) : 0 ∉ b :: rest := by
  intro hmem
  rcases List.mem_cons.mp hmem with rfl | hmem
  · cases hlead
  · rw [← List.take_append_drop n rest, List.mem_append] at hmem
    have hall := not_not.mp (not_or.mp hinside).2
    rcases hmem with hmem | hmem
    · exact absurd (List.all_eq_true.mp hall 0 hmem) (by decide)
    · exact hrest hmem

/-- A NUL byte is in no text that is taken for ASCII or UTF-8. -/
theorem zero_notMem_of_guessEncoding {text : Bytes} (h : guessEncoding text ≠ .cp437) :
    0 ∉ text := by
  induction text using guessEncoding.induct with
  | case1 => exact List.not_mem_nil
  | case2 b rest hplain ih =>
      rw [guessEncoding, if_pos hplain] at h
      rintro (_ | ⟨_, hmem⟩)
      · cases hplain
      · exact ih h hmem
  | case3 b rest hplain hlead =>
      rw [guessEncoding, if_neg hplain, hlead] at h
      exact absurd rfl h
  | case4 b rest hplain n hlead hinside =>
      rw [guessEncoding, if_neg hplain, hlead] at h
      exact absurd (if_pos hinside) h
  | case5 b rest hplain n hlead hinside _ ih | case6 b rest hplain n hlead hinside _ ih =>
      rw [guessEncoding_of_lead hplain hlead hinside, ne_eq, Encoding.wide_eq_cp437_iff] at h
      exact zero_notMem_cons hlead hinside (ih h)

theorem guessEncoding_ne_utf8Known (text : Bytes) : guessEncoding text ≠ .utf8Known := by
  induction text using guessEncoding.induct with
  | case1 =>
      rw [guessEncoding]
      exact Encoding.noConfusion
  | case2 b rest hplain ih =>
      rw [guessEncoding, if_pos hplain]
      exact ih
  | case3 b rest hplain hlead =>
      rw [guessEncoding, if_neg hplain, hlead]
      exact Encoding.noConfusion
  | case4 b rest hplain n hlead hinside =>
      rw [guessEncoding, if_neg hplain, hlead]
      dsimp only
      rw [if_pos hinside]
      exact Encoding.noConfusion
  | case5 b rest hplain n hlead hinside _ ih | case6 b rest hplain n hlead hinside _ ih =>
      rw [guessEncoding_of_lead hplain hlead hinside]
      cases hguess : guessEncoding (rest.drop n) with
      | utf8Known => exact absurd hguess ih
      | ascii | utf8Guessed | cp437 => exact Encoding.noConfusion

/-! ## The text of a name -/

/-- `_zip_string_get` of a name without flags.  An encoding that is recorded never
contradicts the guess. -/
def nameText (raw : Text) : Text :=
  if guessEncoding raw = .cp437 then cp437Bytes raw else raw

/-- The text of the name is another than the name. -/
def IsConverted (raw : Text) : Prop :=
  guessEncoding raw = .cp437 ∧ ∃ b ∈ raw, isFixedByte b = false

theorem nameText_eq_self_iff (raw : Text) : nameText raw = raw ↔ ¬ IsConverted raw := by
  unfold nameText IsConverted
  split
  · next hguess => simp [cp437Bytes_eq_self_iff, hguess]
  · next hguess => simp [hguess]

/-- A name that is read has no NUL byte; it is converted if it is taken for code page
437. -/
theorem isConverted_iff {raw : Text} (hnul : 0 ∉ raw) :
    IsConverted raw ↔ guessEncoding raw = .cp437 := by
  refine ⟨fun h => h.1, fun hguess => ⟨hguess, ?_⟩⟩
  by_contra hfixed
  have hplain : raw.all isPlainByte = true := by
    rw [List.all_eq_true]
    intro b hb
    have hb₀ : b ≠ 0 := fun hzero => hnul (hzero ▸ hb)
    have hall : ∀ n < 256, UInt8.ofNat n ≠ 0 → isFixedByte (UInt8.ofNat n) = true →
        isPlainByte (UInt8.ofNat n) = true := by decide +kernel
    have hbyte := hall b.toNat b.toNat_lt
    rw [UInt8.ofNat_toNat] at hbyte
    exact hbyte hb₀ (by simpa using fun h => hfixed ⟨b, hb, h⟩)
  rw [guessEncoding_eq_ascii hplain] at hguess
  cases hguess

theorem nameText_of_ne {raw : Text} (h : guessEncoding raw ≠ .cp437) : nameText raw = raw :=
  if_neg h

theorem nameText_nil : nameText [] = [] :=
  nameText_of_ne (by rw [guessEncoding]; exact Encoding.noConfusion)

/-- A plain text is that of one name only. -/
theorem nameText_eq_iff {raw name : Text} (hplain : name.all isPlainByte = true) :
    nameText raw = name ↔ raw = name := by
  constructor
  · intro h
    unfold nameText at h
    split at h
    · rw [← h] at hplain ⊢
      exact (cp437Bytes_of_plain hplain).symm
    · exact h
  · rintro rfl
    exact nameText_of_ne (by rw [guessEncoding_eq_ascii hplain]; exact Encoding.noConfusion)

end Archive
end AllvmTools
