import AllvmTools.Archive.Dirent
import AllvmTools.Library.Crc32

/-!
# Reading an entry

The sources behind `ZipArchive::getEntry`: the window of the archive file that
holds the compressed data, the decompressor over it with the lengths of its
`process`, the CRC layer over that, the loop of `zip_source_read`,
`zip_fopen_index`, `zip_fread`, and `getEntry` itself, which looks at none of
their results.

* `fread_getD` — a read of `size` bytes goes over what the lowest layer delivers
  for it, and nothing more.
* `getEntry_intact_iff` — the buffer is as recorded exactly when the entry opens,
  its decoded stream is long enough with the recorded CRC, and a decompressor is
  not asked for more than zlib takes at once.
-/

namespace AllvmTools
namespace Archive

open Library Library.Files Library.Crc32

/-! ## Sources and the read loop -/

/-- The memory that a read went over; `none` is a byte that counts as read and was
never written. -/
abbrev Cells := List (Option UInt8)

/-- A source that is open for reading, with its own context. -/
structure Source (σ : Type) where
  ctx : σ
  eof : Bool
  hadReadError : Bool
deriving DecidableEq, Repr

/-- `zip_source_open` clears both flags. -/
def Source.opened {σ : Type} (ctx : σ) : Source σ :=
  ⟨ctx, false, false⟩

/-- The loop of `zip_source_read`; `call` is the source's `ZIP_SOURCE_READ`, with
`none` for a negative result.  Every turn but the last brings at least one byte,
so `fuel = need` is enough. -/
def readLoop {σ : Type} (call : σ → Nat → Option Cells × σ) :
    Nat → Nat → Cells → Source σ → Option Cells × Source σ
  | 0, _, acc, s => (some acc, s)
  | fuel + 1, need, acc, s =>
      if need = 0 then
        (some acc, s)
      else
        match call s.ctx need with
        | (none, ctx) =>
            (if acc = [] then none else some acc, { s with ctx := ctx, hadReadError := true })
        | (some [], ctx) => (some acc, { s with ctx := ctx, eof := true })
        | (some (b :: bs), ctx) =>
            readLoop call fuel (need - (bs.length + 1)) (acc ++ b :: bs) { s with ctx := ctx }

/-- `zip_source_read`; `none` is its -1. -/
def zipSourceRead {σ : Type} (call : σ → Nat → Option Cells × σ) (len : Nat) (s : Source σ) :
    Option Cells × Source σ :=
  if int64Max < len then
    (none, s)
  else if s.hadReadError then
    (none, s)
  else if s.eof then
    (some [], s)
  else
    readLoop call len len [] s

/-! ## The decoded stream -/

/-- How the decompressor's output ends. -/
inductive InflateEnd where
  /-- The end-of-stream code was reached. -/
  | finished
  /-- All input was consumed first. -/
  | needsData
  | error
deriving DecidableEq, Repr

/-- zlib's raw inflate: what it produces from an input, and how that ends. -/
abbrev Inflate := Bytes → Bytes × InflateEnd

/-- The bytes a window or a decompressor still delivers, whether a failed call
follows them, and the size its `ZIP_SOURCE_STAT` reports at the end, if any. -/
structure Stream where
  rest : Bytes
  broken : Bool
  statSize : Option Nat
  /-- A decompressor that was given no input yet. -/
  idle : Bool
deriving DecidableEq, Repr

/-- The length that `process` reports where zlib produces so many bytes: its room has
32 bits, and what the request exceeds it by counts as produced. -/
def processLength (length produced : Nat) : Nat :=
  length - (min uint32Max length - produced)

/-- `ZIP_SOURCE_READ` of a window or of a decompressor, each of which fills the
request as far as it can.  The first `process` of a decompressor has no input and
produces nothing; the data goes behind what it reports.  Later requests are for the
rest of the first one, which has 32 bits. -/
def Stream.read (s : Stream) (len : Nat) : Option Cells × Stream :=
  let skipped := if s.idle then processLength len 0 else 0
  let room := len - skipped
  let next : Stream :=
    { rest := s.rest.drop room
      broken := s.broken
      statSize := if s.idle then s.statSize.map (· + skipped) else s.statSize
      idle := false }
  if skipped = 0 ∧ s.rest = [] then
    (if s.broken then none else some [], next)
  else
    (some (List.replicate skipped none ++ (s.rest.take room).map some), next)

/-- The window of `comp_size` bytes at `start`: a file that ends inside it is an
error. -/
def windowStream (file : Bytes) (start : Nat) (de : Dirent) : Stream where
  rest := (file.drop start).take de.compSize
  broken := decide ((file.drop start).length < de.compSize)
  statSize := some de.uncompSize
  idle := false

/-- The decompressor over a window. -/
def inflateStream (inflate : Inflate) (window : Stream) : Stream :=
  match inflate window.rest with
  | (output, .finished) => ⟨output, false, some output.length, true⟩
  | (output, .needsData) => ⟨output, window.broken, none, true⟩
  | (output, .error) => ⟨output, true, none, true⟩

/-- What `_zip_source_zip_new` builds under the CRC layer. -/
inductive Layers where
  /-- `comp_size == 0`: an empty buffer source, without a CRC layer. -/
  | empty
  | checked (stream : Stream)
deriving DecidableEq, Repr

/-- `_zip_file_get_offset`: where the data of an entry starts. -/
def fileGetOffset (file : Bytes) (de : Dirent) : Option Nat :=
  match direntSize file de.offset with
  | none => none
  | some size =>
      if int64Max < de.offset + size then none else some (de.offset + size)

/-- `zip_fopen_index` without a password: `_zip_source_zip_new` for the whole
entry, then `zip_source_open`, which opens the window. -/
def fopenIndex (inflate : Inflate) (file : Bytes) (de : Dirent) : Option Layers :=
  if de.encrypted then
    none
  else if de.compSize = 0 then
    some .empty
  else
    match de.compMethod.actual with
    | .store => (openWindow file de).map .checked
    | .deflate => (openWindow file de).map fun window => .checked (inflateStream inflate window)
    | _ => none
where
  /-- `ZIP_SOURCE_OPEN` of the window. -/
  openWindow (file : Bytes) (de : Dirent) : Option Stream :=
    match fileGetOffset file de with
    | none => none
    | some start =>
        -- the data would end past 64 bits
        if 2 ^ 64 ≤ de.compSize + start then none else some (windowStream file start de)

/-! ## The CRC layer -/

/-- `struct crc_context`, with the layer below.  The CRC of memory that was not written
is not determined. -/
structure CrcContext where
  lower : Source Stream
  position : Nat
  crcPosition : Nat
  crc : Option UInt32
  crcComplete : Bool
deriving DecidableEq, Repr

/-- `zip_source_crc` after `ZIP_SOURCE_OPEN`. -/
def CrcContext.opened (stream : Stream) : CrcContext :=
  ⟨.opened stream, 0, 0, some 0, false⟩

/-- The CRC continued over the memory of a read. -/
def crcCells (crc : Option UInt32) (data : Cells) : Option UInt32 :=
  match crc, data.mapM id with
  | some crc, some bytes => some (crc32 crc bytes)
  | _, _ => none

/-- `ZIP_SOURCE_READ` of the CRC layer: only a read that returns nothing checks
the CRC and the size.  A CRC that is not determined fails the check; what was read
before it stays read. -/
def crcRead (de : Dirent) (ctx : CrcContext) (len : Nat) : Option Cells × CrcContext :=
  match zipSourceRead Stream.read len ctx.lower with
  | (none, lower) => (none, { ctx with lower := lower })
  | (some [], lower) =>
      if ctx.crcPosition = ctx.position then
        let done := { ctx with lower := lower, crcComplete := true }
        if some de.crc ≠ ctx.crc ∨ ∃ size ∈ lower.ctx.statSize, size ≠ ctx.position then
          (none, done)
        else
          (some [], done)
      else
        (some [], { ctx with lower := lower })
  | (some data, lower) =>
      if ctx.crcComplete = false ∧ ctx.position ≤ ctx.crcPosition then
        (some data,
          { ctx with
            lower := lower
            crc := crcCells ctx.crc (data.drop (ctx.crcPosition - ctx.position))
            crcPosition := max ctx.crcPosition (ctx.position + data.length)
            position := ctx.position + data.length })
      else
        (some data, { ctx with lower := lower, position := ctx.position + data.length })

/-- `zip_fread` right after the entry was opened. -/
def fread (de : Dirent) (layers : Layers) (toread : Nat) : Option Cells :=
  if int64Max < toread then
    none
  else if toread = 0 then
    some []
  else
    match layers with
    | .empty => some []
    | .checked stream => (zipSourceRead (crcRead de) toread (.opened (.opened stream))).1

/-! ## getEntry -/

/-- What a call of `getEntry` does. -/
inductive EntryRead where
  /-- `zip_fclose` dereferences the null file of a failed `zip_fopen_index`. -/
  | nullDereference
  /-- A buffer of `size` bytes, `read` of them from its start on; the rest was never
  written. -/
  | buffer (size : Nat) (read : Cells) (crc : UInt32)
deriving DecidableEq, Repr

/-- An archive opened for reading: its file and the directory found there. -/
structure ReadArchive where
  file : Bytes
  dirents : List Dirent

namespace ReadArchive

/-- `ZipArchive::getEntryCRC`. -/
def getEntryCRC (archive : ReadArchive) (index : Fin archive.dirents.length) : UInt32 :=
  (archive.dirents.get index).crc

/-- `ZipArchive::getEntryUncompressedSize`. -/
def getEntryUncompressedSize (archive : ReadArchive) (index : Fin archive.dirents.length) : Nat :=
  (archive.dirents.get index).uncompSize

/-- `ZipArchive::getEntry`: the results of `zip_fopen_index` and `zip_fread` are
not looked at. -/
def getEntry (inflate : Inflate) (archive : ReadArchive) (index : Fin archive.dirents.length) :
    EntryRead :=
  let de := archive.dirents.get index
  match fopenIndex inflate archive.file de with
  | none => .nullDereference
  | some layers => .buffer de.uncompSize ((fread de layers de.uncompSize).getD []) de.crc

end ReadArchive

/-- The integrity of a read. -/
def Intact (archive : ReadArchive) (index : Fin archive.dirents.length) : EntryRead → Prop
  | .nullDereference => False
  | .buffer size read crc =>
      size = archive.getEntryUncompressedSize index ∧ crc = archive.getEntryCRC index ∧
        ∃ bytes : Bytes, read = bytes.map some ∧ bytes.length = size ∧ crc32 0 bytes = crc

/-! ## What a read delivers -/

/-- All bytes the opened layers can deliver. -/
def Layers.decoded : Layers → Bytes
  | empty => []
  | checked stream => stream.rest

/-- The bytes come from a decompressor. -/
def Layers.inflated : Layers → Bool
  | empty => false
  | checked stream => stream.idle

/-- The memory that the first read of the lowest layer goes over. -/
def Layers.delivers (layers : Layers) (len : Nat) : Cells :=
  match layers with
  | empty => []
  | checked stream => (stream.read len).1.getD []

/-! ### One turn of the read loop -/

section Loop

variable {σ : Type} {call : σ → Nat → Option Cells × σ} {s : Source σ} {acc : Cells}

@[simp] theorem readLoop_done (fuel : Nat) : readLoop call fuel 0 acc s = (some acc, s) := by
  cases fuel <;> simp [readLoop]

/-- A call that brings bytes is followed by the rest of the request. -/
theorem readLoop_turn {fuel need : Nat} {data : Cells} {ctx : σ} (hneed : 0 < need)
    (hdata : data ≠ []) (hcall : call s.ctx need = (some data, ctx)) :
    readLoop call (fuel + 1) need acc s =
      readLoop call fuel (need - data.length) (acc ++ data) { s with ctx := ctx } := by
  cases data with
  | nil => exact absurd rfl hdata
  | cons b bs =>
      simp only [readLoop, hcall, List.length_cons]
      rw [if_neg (by omega)]

/-- A call that brings nothing ends the loop with what there was. -/
theorem readLoop_nothing {fuel need : Nat} (hneed : 0 < need)
    (hcall : (call s.ctx need).1.getD [] = []) :
    (readLoop call (fuel + 1) need acc s).1.getD [] = acc ∧
      ((readLoop call (fuel + 1) need acc s).2.eof = true ∨
        (readLoop call (fuel + 1) need acc s).2.hadReadError = true) := by
  have hpos : need ≠ 0 := by omega
  rcases hresult : call s.ctx need with ⟨_ | _ | ⟨b, bs⟩, ctx⟩
  · simp only [readLoop, hresult, if_neg hpos]
    refine ⟨?_, Or.inr trivial⟩
    by_cases hacc : acc = [] <;> simp [hacc]
  · simp only [readLoop, hresult, if_neg hpos]
    exact ⟨rfl, Or.inl trivial⟩
  · rw [hresult] at hcall
    exact absurd hcall (List.cons_ne_nil b bs)

/-- A read of a source whose last call ended it brings nothing. -/
theorem zipSourceRead_ended (len : Nat) (h : s.eof = true ∨ s.hadReadError = true) :
    (zipSourceRead call len s).1.getD [] = [] := by
  unfold zipSourceRead
  split
  · rfl
  · split
    · rfl
    · next herror =>
        have heof : s.eof = true := h.resolve_right herror
        rw [if_pos heof]
        rfl

/-- A fresh source is read by the loop. -/
theorem zipSourceRead_opened {len : Nat} {ctx : σ} (hlen : len ≤ int64Max) :
    zipSourceRead call len (.opened ctx) = readLoop call len len [] (.opened ctx) := by
  simp only [zipSourceRead, Source.opened]
  rw [if_neg (by omega)]
  rfl

end Loop

/-! ### A read through the layers -/

/-- A request that zlib has room for is served from its start. -/
theorem processLength_of_le {len : Nat} (hlen : len ≤ uint32Max) : processLength len 0 = 0 := by
  unfold processLength
  omega

theorem processLength_le (len : Nat) : processLength len 0 ≤ len := by
  unfold processLength
  omega

/-- A layer that is at its end brings nothing. -/
theorem stream_read_nil {s : Stream} (len : Nat) (hrest : s.rest = []) (hidle : s.idle = false) :
    (s.read len).1.getD [] = [] := by
  simp only [Stream.read, hidle, Bool.false_eq_true, if_false]
  rw [if_pos ⟨trivial, hrest⟩]
  split <;> rfl

/-- What a read brings is no longer than the request, and ends the layer where it is
shorter. -/
theorem stream_read_spec (s : Stream) (len : Nat) :
    ((s.read len).1.getD []).length ≤ len ∧ (s.read len).2.idle = false ∧
      (((s.read len).1.getD []).length < len → (s.read len).2.rest = []) := by
  have hskip : (if s.idle then processLength len 0 else 0) ≤ len := by
    split
    · exact processLength_le len
    · exact Nat.zero_le len
  unfold Stream.read
  generalize (if s.idle then processLength len 0 else 0) = skipped at hskip ⊢
  dsimp only
  split
  · next hnothing =>
      refine ⟨?_, rfl, fun _ => ?_⟩
      · split <;> exact Nat.zero_le len
      · rw [hnothing.2, List.drop_nil]
  · simp only [Option.getD_some, List.length_append, List.length_replicate, List.length_map,
      List.length_take]
    refine ⟨by omega, trivial, fun hshort => List.drop_eq_nil_of_le (by omega)⟩

/-- What a read of a fresh stream brings, and when it ends the source. -/
theorem zipSourceRead_stream (stream : Stream) {len : Nat} (hpos : 0 < len)
    (hlen : len ≤ int64Max) :
    (zipSourceRead Stream.read len (.opened stream)).1.getD [] = (stream.read len).1.getD [] ∧
      (((stream.read len).1.getD []).length < len →
        (zipSourceRead Stream.read len (.opened stream)).2.eof = true ∨
          (zipSourceRead Stream.read len (.opened stream)).2.hadReadError = true) := by
  rw [zipSourceRead_opened hlen]
  obtain ⟨fuel, rfl⟩ : ∃ k, len = k + 1 := ⟨len - 1, by omega⟩
  obtain ⟨hle, hidle, hended⟩ := stream_read_spec stream (fuel + 1)
  rcases hread : stream.read (fuel + 1) with ⟨data, next⟩
  rw [hread] at hle hidle hended
  dsimp only at hle hidle hended ⊢
  by_cases hdata : data.getD [] = []
  · have hcall : (Stream.read (Source.opened stream).ctx (fuel + 1)).1.getD [] = [] := by
      rw [show (Source.opened stream).ctx = stream from rfl, hread]
      exact hdata
    rw [hdata]
    exact ⟨(readLoop_nothing hpos hcall).1, fun _ => (readLoop_nothing hpos hcall).2⟩
  · obtain ⟨data, rfl⟩ : ∃ cells, data = some cells := by
      cases data with
      | none => exact absurd rfl hdata
      | some cells => exact ⟨cells, rfl⟩
    rw [Option.getD_some] at hdata hle hended ⊢
    rw [readLoop_turn hpos hdata hread, List.nil_append]
    by_cases hfull : data.length = fuel + 1
    · rw [hfull, Nat.sub_self, readLoop_done]
      exact ⟨rfl, fun hshort => absurd hshort (by omega)⟩
    · -- one more call finds the layer at its end
      have hlength : 0 < data.length := List.length_pos_iff.mpr hdata
      obtain ⟨fuel, rfl⟩ : ∃ k, fuel = k + 1 := ⟨fuel - 1, by omega⟩
      have hneed : 0 < fuel + 1 + 1 - data.length := by omega
      have hcall : (Stream.read ({ Source.opened stream with ctx := next } : Source Stream).ctx
          (fuel + 1 + 1 - data.length)).1.getD [] = [] :=
        stream_read_nil _ (hended (by omega)) hidle
      exact ⟨(readLoop_nothing hneed hcall).1, fun _ => (readLoop_nothing hneed hcall).2⟩

/-- The CRC layer passes on what the layer below brings. -/
theorem crcRead_some (de : Dirent) {ctx : CrcContext} {len : Nat} {data : Cells}
    {lower : Source Stream} (hdata : data ≠ [])
    (hlower : zipSourceRead Stream.read len ctx.lower = (some data, lower)) :
    ∃ ctx', crcRead de ctx len = (some data, ctx') ∧ ctx'.lower = lower := by
  unfold crcRead
  rw [hlower]
  cases data with
  | nil => exact absurd rfl hdata
  | cons b bs =>
      dsimp only
      split
      · exact ⟨_, rfl, rfl⟩
      · exact ⟨_, rfl, rfl⟩

/-- Where the layer below brings nothing, so does the CRC layer, whether its
check succeeds or not. -/
theorem crcRead_nothing (de : Dirent) {ctx : CrcContext} {len : Nat}
    (hlower : (zipSourceRead Stream.read len ctx.lower).1.getD [] = []) :
    (crcRead de ctx len).1.getD [] = [] := by
  unfold crcRead
  rcases hresult : zipSourceRead Stream.read len ctx.lower with ⟨_ | _ | ⟨b, bs⟩, lower⟩
  · rfl
  · dsimp only
    split
    · split <;> rfl
    · rfl
  · rw [hresult] at hlower
    exact absurd hlower (List.cons_ne_nil b bs)

/-- Reading `toread` bytes goes over what the lowest layer delivers for them, whatever
the check at its end would say. -/
theorem fread_getD (de : Dirent) (layers : Layers) {toread : Nat} (hpos : 0 < toread)
    (htoread : toread ≤ int64Max) :
    (fread de layers toread).getD [] = layers.delivers toread := by
  unfold fread
  rw [if_neg (by omega), if_neg (by omega)]
  cases layers with
  | empty => rfl
  | checked stream =>
      obtain ⟨hgot, hended⟩ := zipSourceRead_stream stream hpos htoread
      obtain ⟨hle, -, -⟩ := stream_read_spec stream toread
      dsimp only [Layers.delivers]
      rw [zipSourceRead_opened htoread]
      obtain ⟨fuel, rfl⟩ : ∃ k, toread = k + 1 := ⟨toread - 1, by omega⟩
      generalize (stream.read (fuel + 1)).1.getD [] = cells at hgot hended hle ⊢
      rcases hlower : zipSourceRead Stream.read (fuel + 1) (.opened stream) with ⟨data, lower⟩
      rw [hlower] at hgot hended
      by_cases hdata : cells = []
      · have hnothing : (crcRead de (Source.opened (CrcContext.opened stream)).ctx
            (fuel + 1)).1.getD [] = [] := by
          refine crcRead_nothing de ?_
          change (zipSourceRead Stream.read (fuel + 1) (.opened stream)).1.getD [] = []
          rw [hlower, hgot, hdata]
        rw [(readLoop_nothing hpos hnothing).1, hdata]
      · have hsome : data = some cells := by
          cases data with
          | none => exact absurd hgot.symm hdata
          | some data => simpa using hgot
        rw [hsome] at hlower
        obtain ⟨ctx, hcall, hctx⟩ : ∃ ctx,
            crcRead de (Source.opened (CrcContext.opened stream)).ctx (fuel + 1) =
              (some cells, ctx) ∧ ctx.lower = lower :=
          crcRead_some de hdata hlower
        rw [readLoop_turn hpos hdata hcall, List.nil_append]
        by_cases hfull : cells.length = fuel + 1
        · rw [hfull, Nat.sub_self, readLoop_done]
          rfl
        · -- the second call meets the end of the layer below
          have hnonempty : 0 < cells.length := List.length_pos_iff.mpr hdata
          obtain ⟨fuel, rfl⟩ : ∃ k, fuel = k + 1 := ⟨fuel - 1, by omega⟩
          refine (readLoop_nothing (by omega) (crcRead_nothing de ?_)).1
          rw [hctx]
          exact zipSourceRead_ended _ (hended (by omega))

/-- A read of nothing. -/
theorem fread_zero (de : Dirent) (layers : Layers) : (fread de layers 0).getD [] = [] := by
  unfold fread
  rw [if_neg (by omega), if_pos rfl]
  rfl

/-! ## When a read is intact -/

/-- A decompressor is not asked for more than zlib takes at once. -/
def Layers.HasRoom (layers : Layers) (len : Nat) : Prop :=
  layers.inflated = true → len ≤ uint32Max

/-- A request with room is served with the bytes of the decoded stream. -/
theorem Layers.HasRoom.delivers_eq {layers : Layers} {len : Nat} (h : layers.HasRoom len) :
    layers.delivers len = (layers.decoded.take len).map some := by
  cases layers with
  | empty => simp [delivers, decoded]
  | checked stream =>
      have hskip : (if stream.idle then processLength len 0 else 0) = 0 := by
        split
        · next hidle => exact processLength_of_le (h hidle)
        · rfl
      simp only [delivers, decoded, Stream.read, hskip, true_and]
      split
      · next hrest =>
          rw [hrest]
          split <;> simp
      · simp

/-- Without room the first byte is not written. -/
theorem Layers.delivers_of_not_hasRoom {layers : Layers} {len : Nat} (h : ¬ layers.HasRoom len) :
    none ∈ layers.delivers len := by
  unfold HasRoom at h
  push Not at h
  obtain ⟨hinflated, hlarge⟩ := h
  cases layers with
  | empty => cases hinflated
  | checked stream =>
      have hidle : stream.idle = true := hinflated
      have hskip : 0 < processLength len 0 := by
        unfold processLength
        omega
      simp only [delivers, Stream.read, hidle, if_true]
      rw [if_neg (by omega), Option.getD_some, List.mem_append, List.mem_replicate]
      exact Or.inl ⟨by omega, rfl⟩

/-- A read goes over the bytes of a decoded stream, all of them written. -/
theorem fread_getD_of_hasRoom (de : Dirent) {layers : Layers} {toread : Nat}
    (hroom : layers.HasRoom toread) (htoread : toread ≤ int64Max) :
    (fread de layers toread).getD [] = (layers.decoded.take toread).map some := by
  rcases Nat.eq_zero_or_pos toread with rfl | hpos
  · rw [fread_zero, List.take_zero, List.map_nil]
  · rw [fread_getD de layers hpos htoread, hroom.delivers_eq]

/-- Without room a read does not write all it goes over. -/
theorem fread_getD_of_not_hasRoom (de : Dirent) {layers : Layers} {toread : Nat}
    (hroom : ¬ layers.HasRoom toread) (htoread : toread ≤ int64Max) :
    none ∈ (fread de layers toread).getD [] := by
  have hpos : 0 < toread := by
    by_contra hzero
    exact hroom fun _ => by omega
  rw [fread_getD de layers hpos htoread]
  exact Layers.delivers_of_not_hasRoom hroom

/-- The entry opens, and its decoded stream is as long as recorded and has the
recorded CRC; a decompressor has room for it. -/
def Readable (inflate : Inflate) (file : Bytes) (de : Dirent) : Prop :=
  ∃ layers, fopenIndex inflate file de = some layers ∧ de.uncompSize ≤ int64Max ∧
    layers.HasRoom de.uncompSize ∧ de.uncompSize ≤ layers.decoded.length ∧
    crc32 0 (layers.decoded.take de.uncompSize) = de.crc

/-- **A read of an entry is intact exactly when the entry opens, its decoded stream
begins with as many bytes as recorded, of the recorded CRC, and a deflated entry has
at most as many bytes as zlib takes at once.** -/
theorem getEntry_intact_iff (inflate : Inflate) (archive : ReadArchive)
    (index : Fin archive.dirents.length) :
    Intact archive index (archive.getEntry inflate index) ↔
      Readable inflate archive.file (archive.dirents.get index) := by
  unfold Readable
  cases hopen : fopenIndex inflate archive.file (archive.dirents.get index) with
  | none =>
      have hget : archive.getEntry inflate index = .nullDereference := by
        simp only [ReadArchive.getEntry, hopen]
      rw [hget]
      constructor
      · exact False.elim
      · rintro ⟨layers, hlayers, -⟩
        cases hlayers
  | some layers =>
      have hget : archive.getEntry inflate index =
          .buffer (archive.dirents.get index).uncompSize
            ((fread (archive.dirents.get index) layers
              (archive.dirents.get index).uncompSize).getD [])
            (archive.dirents.get index).crc := by
        simp only [ReadArchive.getEntry, hopen]
      rw [hget]
      simp only [Intact, ReadArchive.getEntryUncompressedSize, ReadArchive.getEntryCRC, true_and,
        Option.some.injEq, exists_eq_left']
      by_cases hsize : (archive.dirents.get index).uncompSize ≤ int64Max
      · by_cases hroom : layers.HasRoom (archive.dirents.get index).uncompSize
        · rw [fread_getD_of_hasRoom _ hroom hsize]
          constructor
          · rintro ⟨bytes, hbytes, hlength, hcrc⟩
            rw [← List.map_injective_iff.mpr (Option.some_injective UInt8) hbytes] at hlength hcrc
            rw [List.length_take] at hlength
            exact ⟨hsize, hroom, by omega, hcrc⟩
          · rintro ⟨-, -, hlength, hcrc⟩
            exact ⟨_, rfl, List.length_take_of_le hlength, hcrc⟩
        · constructor
          · rintro ⟨bytes, hbytes, -⟩
            have hmem := fread_getD_of_not_hasRoom (archive.dirents.get index) hroom hsize
            rw [hbytes] at hmem
            obtain ⟨b, -, hb⟩ := List.mem_map.mp hmem
            cases hb
          · rintro ⟨-, hroom', -⟩
            exact absurd hroom' hroom
      · -- `zip_fread` refuses such a request and writes nothing
        have hrefused : fread (archive.dirents.get index) layers
            (archive.dirents.get index).uncompSize = none := by
          unfold fread
          rw [if_pos (by omega)]
        rw [hrefused]
        constructor
        · rintro ⟨bytes, hbytes, hlength, -⟩
          rw [Option.getD_none, eq_comm, List.map_eq_nil_iff] at hbytes
          rw [hbytes, List.length_nil] at hlength
          omega
        · rintro ⟨hle, -⟩
          exact absurd hle hsize

/-- The directory entry of a stored one-byte main module. -/
def storedEntry : Dirent :=
  { Dirent.init with
    filename := ascii "main.bc"
    compMethod := .store
    crc := crc32 0 [66]
    compSize := 1
    uncompSize := 1 }

/-- An archive of that entry whose data byte was damaged: the changed byte is
returned together with the recorded CRC. -/
theorem damaged_byte_is_returned :
    let file := storedEntry.localHeader false ++ [67] ++ storedEntry.centralRecord ++
      cdirEnd false 1 storedEntry.centralRecord.length (storedEntry.localHeader false ++ [67]).length
    (ReadArchive.mk file [storedEntry]).getEntry (fun _ => ([], .error)) 0 =
        .buffer 1 [some 67] (crc32 0 [66]) ∧
      ¬ Intact (ReadArchive.mk file [storedEntry]) 0
        ((ReadArchive.mk file [storedEntry]).getEntry (fun _ => ([], .error)) 0) := by
  intro file
  have hread : (ReadArchive.mk file [storedEntry]).getEntry (fun _ => ([], .error)) 0 =
      .buffer 1 [some 67] (crc32 0 [66]) := by
    decide +kernel
  refine ⟨hread, ?_⟩
  rw [hread]
  rintro ⟨-, -, bytes, hbytes, -, hcrc⟩
  obtain rfl : bytes = [67] :=
    List.map_injective_iff.mpr (Option.some_injective UInt8) hbytes.symm
  exact absurd hcrc (by decide +kernel)

end Archive
end AllvmTools
