import AllvmTools.Archive.CloseFailure
import AllvmTools.Archive.OpenArchive
import AllvmTools.Library.Incompressible
import AllvmTools.Library.Runs

/-!
# Sessions on one allexe

A session opens an allexe, adds and updates modules, and closes it.  A run is any
sequence of sessions on one file in which no operation fails; next to the file it
carries the list of modules the file should hold.

* `sessions_roundTrip_iff` — after every session the file is the prefix once, the
  blocks of the modules at their recorded offsets and the directory, and it reads
  back as the list, if and only if no session replaces a module of 64-bit size by
  a small one, or leaves a module whose length takes 64 bits.
* `large_module_is_unreadable`, `small_update_is_lost` — runs with such sessions,
  whatever the compressor.
-/

namespace AllvmTools
namespace Archive

open Library Library.Text Library.Files Library.Crc32 Library.Runs

/-- The buffer of a call. -/
def ArchiveOp.buffer : ArchiveOp → Buffer
  | .add _ buffer => buffer
  | .update _ buffer => buffer

/-- Names that are not empty, without NUL bytes and short enough for a zip header,
and buffers a process can hold. -/
structure ArchiveOp.Valid (op : ArchiveOp) : Prop where
  fits : op.Fits
  size : op.buffer.bytes.length ≤ int64Max
  name : ∀ name buffer, op = .add name buffer → name ≠ [] ∧ 0 ∉ name

/-- From `Allexe::open` to the destructor. -/
structure Session where
  alleyPath : Text
  overwrite : Bool
  ops : List ArchiveOp

/-- The file after the sessions so far, the directory last written to it, the
modules it should hold, and the alley path of the last session that changed it. -/
structure State where
  file : Option Bytes
  written : List Dirent
  modules : List Module
  alleyPath : Text

/-- Nothing was written yet: there is no file, or an empty one. -/
def State.start (file : Option Bytes) (alleyPath : Text) : State :=
  ⟨file, [], [], alleyPath⟩

namespace Session

/-- The modules a session starts from. -/
def opened (t : Session) (modules : List Module) : List Module :=
  if t.overwrite then [] else modules

/-- The modules after the session. -/
def model (t : Session) (modules : List Module) : List Module :=
  t.ops.foldl ArchiveOp.model (t.opened modules)

/-- The result of `zip_close` and the file after the session; nothing where the
opening or a call fails. -/
def run (codec : Codec) (parse : Bytes → Option (List Dirent)) (t : Session)
    (file : Option Bytes) : Option (Option (Option (List Dirent)) × Option Bytes) :=
  match openAllexe parse t.alleyPath file t.overwrite with
  | none => none
  | some zip =>
      match applyOps zip t.ops with
      | none => none
      | some zip =>
          some ((zipClose codec zip.archive .calm (.start file)).1,
            (zipClose codec zip.archive .calm (.start file)).2.file)

/-- The sessions spoken of: C strings and admissible names, buffers in memory, and
`main.bc` as the first module. -/
structure Valid (t : Session) (modules : List Module) : Prop where
  alleyPath : 0 ∉ t.alleyPath
  ops : ∀ op ∈ t.ops, op.Valid
  main : ∀ m ∈ (t.model modules).head?, m.name = allexeMain

end Session

/-- The directory of the file after one more `zip_close`: the one it wrote, none
where it removed the file, or the old one. -/
def writtenBy (before : List Dirent) (result : Option (Option (List Dirent)))
    (file : Option Bytes) : List Dirent :=
  match result with
  | some (some des) => des
  | _ => if file.isSome then before else []

/-- The parser finds the entries that were written. -/
def Recovers (parse : Bytes → Option (List Dirent)) (bytes : Bytes) (des : List Dirent) : Prop :=
  ∃ dirents, parse bytes = some dirents ∧ List.Forall₂ SameEntry des dirents

/-- One session without I/O failures, after which the file is within the range of
file offsets and what was written to it can be parsed. -/
structure Step (codec : Codec) (parse : Bytes → Option (List Dirent)) (s : State) (t : Session)
    (s' : State) : Prop where
  valid : t.Valid s.modules
  modules : s'.modules = t.model s.modules
  alleyPath : s'.alleyPath = if t.ops = [] then s.alleyPath else t.alleyPath
  runs : ∃ result, t.run codec parse s.file = some (result, s'.file) ∧
    s'.written = writtenBy s.written result s'.file ∧
    ∀ des, result = some (some des) → ∀ bytes ∈ s'.file, Recovers parse bytes des
  fits : ∀ bytes ∈ s'.file, bytes.length ≤ int64Max

/-! ## The property -/

/-- The archive that reading opens. -/
def ZipArchive.reading (zip : ZipArchive) (file : Bytes) : ReadArchive :=
  ⟨file, zip.archive.entries.filterMap ZipEntry.orig⟩

/-- The file opens for reading, under any alley path, with the names and the bytes
of the modules in their order. -/
def ReadsBack (codec : Codec) (parse : Bytes → Option (List Dirent)) (bytes : Bytes)
    (modules : List Module) : Prop :=
  ∀ alleyPath, ∃ zip, openForReading parse alleyPath (some bytes) = some zip ∧
    zip.files = modules.map Module.name ∧
    (zip.reading bytes).dirents.length = modules.length ∧
    ∀ (index : Fin (zip.reading bytes).dirents.length) (m : Module),
      modules[index.val]? = some m →
        (zip.reading bytes).getEntry codec.inflate index =
          .buffer m.bytes.length (m.bytes.map some) (crc32 0 m.bytes)

/-- The file is the archive of the modules: the prefix once at its start, the
blocks at the offsets the directory records, and the directory. -/
structure RoundTrips (codec : Codec) (parse : Bytes → Option (List Dirent)) (s : State) :
    Prop where
  empty : s.modules = [] → s.file = none ∨ s.file = some []
  archive : s.modules ≠ [] → ∃ blocks : List Block,
    s.file = some (archiveBytes (shebang s.alleyPath) blocks) ∧
    s.written = blocks.map Block.de ∧
    Consecutive (shebang s.alleyPath).length blocks ∧
    ReadsBack codec parse (archiveBytes (shebang s.alleyPath) blocks) s.modules

/-- No update replaces a module whose compressed size takes 64 bits by one that
surely needs only 32. -/
def KeepsHeaders (s : State) (t : Session) : Prop :=
  t.overwrite = false → ∀ (idx : Nat) (de : Dirent) (m : Module) (buffer : Buffer),
    s.written[idx]? = some de → uint32Max ≤ de.compSize → .update idx buffer ∈ t.ops →
      (t.model s.modules)[idx]? = some m → maxSize .deflate < m.bytes.length

/-- No module is longer than what zlib takes at once. -/
def State.Short (s : State) : Prop :=
  ∀ m ∈ s.modules, m.bytes.length ≤ uint32Max

/-- The session leaves no module that is longer than what zlib takes at once. -/
def KeepsShort (s : State) (t : Session) : Prop :=
  ∀ m ∈ t.model s.modules, m.bytes.length ≤ uint32Max

/-! ## The invariant -/

/-- What holds after every session. -/
structure Inv (codec : Codec) (parse : Bytes → Option (List Dirent)) (s : State) : Prop where
  fits : ∀ bytes ∈ s.file, bytes.length ≤ int64Max
  main : ∀ m ∈ s.modules.head?, m.name = allexeMain
  texts : ∀ m ∈ s.modules, nameText m.name = m.name
  sizes : ∀ m ∈ s.modules, m.bytes.length ≤ int64Max
  content : (s.modules = [] ∧ s.written = [] ∧ (s.file = none ∨ s.file = some [])) ∨
    s.modules ≠ [] ∧ ∃ blocks : List Block,
      s.file = some (archiveBytes (shebang s.alleyPath) blocks) ∧
      s.written = blocks.map Block.de ∧
      Consecutive (shebang s.alleyPath).length blocks ∧
      List.Forall₂ (Block.Holds codec) blocks s.modules ∧
      Recovers parse (archiveBytes (shebang s.alleyPath) blocks) s.written

theorem archiveBytes_ne_nil (alleyPath : Text) (blocks : List Block) :
    archiveBytes (shebang alleyPath) blocks ≠ [] := by
  intro hnil
  have hlength := congrArg List.length hnil
  simp [archiveBytes, shebang, ascii] at hlength

section Steps

variable {codec : Codec} {parse : Bytes → Option (List Dirent)} {s s' : State} {t : Session}

/-- Parsed entries store the modules, as the written ones do. -/
theorem stored_of_recovers {bytes : Bytes} {des dirents : List Dirent} {modules : List Module}
    (hstored : List.Forall₂ (Stored codec bytes) des modules)
    (hsame : List.Forall₂ SameEntry des dirents) :
    List.Forall₂ (Stored codec bytes) dirents modules := by
  induction hsame generalizing modules with
  | nil => exact hstored
  | cons h _ ih =>
      cases hstored with
      | cons hfirst hrest => exact .cons (hfirst.of_sameEntry h) (ih hrest)

theorem head?_filename {bytes : Bytes} {dirents : List Dirent} {modules : List Module}
    (hstored : List.Forall₂ (Stored codec bytes) dirents modules)
    (hmain : ∀ m ∈ modules.head?, m.name = allexeMain) :
    ∀ de ∈ dirents.head?, de.filename = allexeMain := by
  cases hstored with
  | nil => exact fun _ h => absurd h (by simp)
  | @cons de m _ _ h _ =>
      rintro _ ⟨⟩
      rw [h.filename]
      exact hmain m rfl

/-- What opening a good file gives. -/
structure Opens (codec : Codec) (parse : Bytes → Option (List Dirent)) (s : State)
    (t : Session) (zip : ZipArchive) : Prop where
  opens : openAllexe parse t.alleyPath s.file t.overwrite = some zip
  represents : Represents codec s.file zip (t.opened s.modules)
  truncate : zip.archive.truncate = t.overwrite
  prefixdata : zip.archive.prefixdata = some (shebang t.alleyPath)
  unchanged : zip.archive.changed = false
  source : ∀ e ∈ zip.archive.entries, e.source = none
  orig : ∀ (idx : Nat) (e : ZipEntry) (o : Dirent), zip.archive.entries[idx]? = some e → e.orig = some o →
    t.overwrite = false ∧ ∃ de, s.written[idx]? = some de ∧ de.compSize = o.compSize
  written : t.overwrite = false → ∀ (idx : Nat) (de : Dirent), s.written[idx]? = some de →
    ∃ e o, zip.archive.entries[idx]? = some e ∧ e.orig = some o ∧ de.compSize = o.compSize

theorem opens_fresh (hopen : t.overwrite = true ∨ s.file = none ∨ s.file = some [])
    (hmodules : t.opened s.modules = []) (hwritten : t.overwrite = false → s.written = []) :
    Opens codec parse s t (.fresh t.overwrite t.alleyPath) where
  opens := openAllexe_fresh parse t.alleyPath hopen
  represents := hmodules ▸ fresh_represents _ _
  truncate := rfl
  prefixdata := rfl
  unchanged := rfl
  source := fun _ he => by cases he
  orig := fun _ _ _ he => by cases he
  written := by
    intro hoverwrite idx de hde
    rw [hwritten hoverwrite] at hde
    cases hde

theorem opens_ofDirectory {bytes : Bytes} {dirents : List Dirent}
    (hfile : s.file = some bytes) (hbytes : bytes ≠ []) (hoverwrite : t.overwrite = false)
    (hparse : parse bytes = some dirents) (hsame : List.Forall₂ SameEntry s.written dirents)
    (hstored : List.Forall₂ (Stored codec bytes) s.written s.modules)
    (hmain : ∀ m ∈ s.modules.head?, m.name = allexeMain)
    (htexts : ∀ m ∈ s.modules, nameText m.name = m.name) :
    Opens codec parse s t (.ofDirectory dirents t.alleyPath) := by
  have hstored' := stored_of_recovers hstored hsame
  have hentry : ∀ e ∈ originalEntries dirents, ∃ de, e = ⟨some de, none, none, false⟩ := by
    intro e he
    obtain ⟨de, -, rfl⟩ := List.mem_map.mp he
    exact ⟨de, rfl⟩
  constructor
  · rw [hfile, hoverwrite]
    exact openAllexe_of_parse t.alleyPath hbytes hparse (head?_filename hstored' hmain)
  · rw [hfile, Session.opened, if_neg (by simp [hoverwrite])]
    exact ofDirectory_represents t.alleyPath hstored' htexts
  · exact hoverwrite.symm
  · rfl
  · apply List.any_eq_false.mpr
    intro e he
    obtain ⟨de, rfl⟩ := hentry e he
    exact Bool.false_ne_true
  · intro e he
    obtain ⟨de, rfl⟩ := hentry e he
    rfl
  · -- what was parsed are the entries that were written
    intro idx e o he ho
    change (dirents.map fun de => ⟨some de, none, none, false⟩)[idx]? = some e at he
    rw [List.getElem?_map] at he
    obtain ⟨de, hde, rfl⟩ := Option.map_eq_some_iff.mp he
    cases ho
    obtain ⟨de', hde', hsame'⟩ := forall₂_getElem? hsame.flip hde
    exact ⟨hoverwrite, de', hde', hsame'.compSize⟩
  · intro _ idx de hde
    obtain ⟨o, ho, hsame'⟩ := forall₂_getElem? hsame hde
    refine ⟨⟨some o, none, none, false⟩, o, ?_, rfl, hsame'.compSize⟩
    show (originalEntries dirents)[idx]? = _
    rw [originalEntries, List.getElem?_map, ho]
    rfl

theorem Inv.open (h : Inv codec parse s) (t : Session) : ∃ zip, Opens codec parse s t zip := by
  by_cases hoverwrite : t.overwrite = true
  · exact ⟨_, opens_fresh (Or.inl hoverwrite) (by rw [Session.opened, if_pos hoverwrite])
      fun hfalse => absurd hoverwrite (by simp [hfalse])⟩
  rcases h.content with ⟨hnil, hwritten, hfile⟩ | ⟨-, blocks, hfile, hwritten, hoffsets, hholds, hrecovers⟩
  · have hopened : t.opened s.modules = [] := by
      rw [Session.opened, if_neg hoverwrite, hnil]
    exact ⟨_, opens_fresh (Or.inr hfile) hopened fun _ => hwritten⟩
  · obtain ⟨dirents, hparse, hsame⟩ := hrecovers
    have hstored := stored_of_layout hoffsets hholds
    exact ⟨_, opens_ofDirectory hfile (archiveBytes_ne_nil _ _) (Bool.not_eq_true _ ▸ hoverwrite)
      hparse hsame (hwritten ▸ hstored) h.main h.texts⟩

/-- The open archive at the end of the calls. -/
structure Calls (codec : Codec) (s : State) (t : Session) (zip : ZipArchive) : Prop where
  represents : Represents codec s.file zip (t.model s.modules)
  truncate : zip.archive.truncate = t.overwrite
  prefixdata : zip.archive.prefixdata = some (shebang t.alleyPath)
  changed : zip.archive.changed = decide (t.ops ≠ [])
  touched : ∀ (idx : Nat) (e : ZipEntry) (o : Dirent) (buffer : Buffer),
    zip.archive.entries[idx]? = some e → e.orig = some o → e.source = some buffer →
    t.overwrite = false ∧ (∃ buffer, .update idx buffer ∈ t.ops) ∧
      ∃ de, s.written[idx]? = some de ∧ de.compSize = o.compSize
  updated : t.overwrite = false → ∀ (idx : Nat) (de : Dirent), s.written[idx]? = some de →
    (∃ buffer, .update idx buffer ∈ t.ops) → ∃ e o, zip.archive.entries[idx]? = some e ∧
      e.orig = some o ∧ e.source.isSome = true ∧ de.compSize = o.compSize

theorem Opens.calls {zip zip' : ZipArchive} (h : Opens codec parse s t zip)
    (hvalid : t.Valid s.modules) (hops : applyOps zip t.ops = some zip') :
    Calls codec s t zip' := by
  have hfits : ∀ op ∈ t.ops, op.Fits := fun op hop => (hvalid.ops op hop).fits
  obtain ⟨htruncate, hfront, hchanged⟩ := applyOps_frame h.represents hfits hops
  refine ⟨h.represents.applyOps hfits hops, htruncate.trans h.truncate,
    hfront.trans h.prefixdata, ?_, ?_, ?_⟩
  · by_cases hnil : t.ops = []
    · rw [hnil] at hops
      cases hops
      rw [h.unchanged, hnil]
      rfl
    · rw [hchanged hnil, decide_eq_true hnil]
  · intro idx e' o buffer he' ho hbuffer
    obtain ⟨e, he, ho, hsource⟩ := touched_of_applyOps h.represents hfits hops he' ho
    obtain ⟨hoverwrite, hwritten⟩ := h.orig idx e o he ho
    refine ⟨hoverwrite, ?_, hwritten⟩
    rcases hsource with hsame | htouched
    · rw [h.source e (List.mem_of_getElem? he), hbuffer] at hsame
      cases hsame
    · exact htouched
  · intro hoverwrite idx de hde hmem
    obtain ⟨e, o, he, ho, hcompSize⟩ := h.written hoverwrite idx de hde
    obtain ⟨e', he', horig, hsource⟩ := updated_of_applyOps h.represents hfits hops he
    exact ⟨e', o, he', horig.trans ho, hsource (Or.inr hmem), hcompSize⟩

/-- A step through its calls. -/
theorem Step.calls (hinv : Inv codec parse s) (hstep : Step codec parse s t s') :
    ∃ zip, Calls codec s t zip ∧
      s'.file = (zipClose codec zip.archive .calm (.start s.file)).2.file ∧
      s'.written =
        writtenBy s.written (zipClose codec zip.archive .calm (.start s.file)).1 s'.file ∧
      ∀ des, (zipClose codec zip.archive .calm (.start s.file)).1 = some (some des) →
        ∀ bytes ∈ s'.file, Recovers parse bytes des := by
  obtain ⟨zip, hopens⟩ := hinv.open t
  obtain ⟨result, hrun, hwritten, hrecovers⟩ := hstep.runs
  unfold Session.run at hrun
  rw [hopens.opens] at hrun
  dsimp only at hrun
  split at hrun
  · cases hrun
  · next zip' hops =>
      have hpair := Option.some.inj hrun
      rw [Prod.mk.injEq] at hpair
      obtain ⟨rfl, hfile⟩ := hpair
      exact ⟨zip', hopens.calls hstep.valid hops, hfile.symm, hwritten, hrecovers⟩

/-- The module of an entry of the file with new data is that data. -/
theorem Pending.bytes_eq {old : Option Bytes} {e : ZipEntry} {m : Module} {buffer : Buffer}
    (h : Pending codec old e m) (hbuffer : e.source = some buffer) : m.bytes = buffer.bytes := by
  cases h with
  | kept => cases hbuffer
  | replaced =>
      cases hbuffer
      rfl
  | added =>
      cases hbuffer
      rfl

/-- The condition on a session says that no header grows. -/
theorem Calls.grows_iff {zip : ZipArchive} (h : Calls codec s t zip) :
    (∃ e ∈ zip.archive.entries, e.Grows) ↔ ¬ KeepsHeaders s t := by
  constructor
  · rintro ⟨e, he, o, ho, buffer, hbuffer, hlarge, hsmall⟩ hkeeps
    obtain ⟨idx, hidx⟩ := List.mem_iff_getElem?.mp he
    obtain ⟨hoverwrite, ⟨last, hlast⟩, de, hde, hcompSize⟩ :=
      h.touched idx e o buffer hidx ho hbuffer
    obtain ⟨m, hm, hpending⟩ := forall₂_getElem? h.represents.entries hidx
    have hlt := hkeeps hoverwrite idx de m last hde (hcompSize ▸ hlarge) hlast hm
    rw [hpending.bytes_eq hbuffer] at hlt
    omega
  · intro hkeeps
    unfold KeepsHeaders at hkeeps
    push Not at hkeeps
    obtain ⟨hoverwrite, idx, de, m, last, hde, hlarge, hlast, hm, hsmall⟩ := hkeeps
    obtain ⟨e, o, he, ho, hsource, hcompSize⟩ := h.updated hoverwrite idx de hde ⟨last, hlast⟩
    obtain ⟨buffer, hbuffer⟩ := Option.isSome_iff_exists.mp hsource
    obtain ⟨m', hm', hpending⟩ := forall₂_getElem? h.represents.entries he
    rw [hm] at hm'
    cases hm'
    refine ⟨e, List.mem_of_getElem? he, o, ho, buffer, hbuffer, hcompSize ▸ hlarge, ?_⟩
    rw [← hpending.bytes_eq hbuffer]
    exact hsmall

theorem length_model_le {ops : List ArchiveOp} {modules : List Module}
    (hops : ∀ op ∈ ops, op.Valid) (hmodules : ∀ m ∈ modules, m.bytes.length ≤ int64Max) :
    ∀ m ∈ ops.foldl ArchiveOp.model modules, m.bytes.length ≤ int64Max := by
  induction ops generalizing modules with
  | nil => exact hmodules
  | cons op rest ih =>
      apply ih fun op hmem => hops op (List.mem_cons_of_mem _ hmem)
      have hop := hops op List.mem_cons_self
      cases op with
      | add name buffer =>
          intro m hm
          rcases List.mem_append.mp hm with hm | hm
          · exact hmodules m hm
          · rw [List.mem_singleton.mp hm]
            exact hop.size
      | update idx buffer =>
          intro m hm
          obtain ⟨i, hi⟩ := List.mem_iff_getElem?.mp hm
          rw [ArchiveOp.model, List.getElem?_modify] at hi
          obtain ⟨m', hm', hm⟩ := Option.map_eq_some_iff.mp hi
          split at hm
          · rw [← hm]
            exact hop.size
          · rw [← hm]
            exact hmodules m' (List.mem_of_getElem? hm')

/-- A close without entries writes no directory. -/
theorem writtenBy_empty {zip : ZipArchive} {w : World} (hentries : zip.archive.survivors = [])
    (before : List Dirent) (file : Option Bytes) :
    writtenBy before (zipClose codec zip.archive .calm w).1 file =
      if file.isSome then before else [] := by
  have hresult : ∀ des, (zipClose codec zip.archive .calm w).1 ≠ some (some des) := by
    intro des
    unfold zipClose
    rw [if_pos hentries]
    split
    · split <;> simp
    · simp
  unfold writtenBy
  split
  · next des h => exact absurd h (hresult des)
  · rfl

/-- A session without calls leaves the file, or removes it to overwrite. -/
theorem Inv.noCalls {zip : ZipArchive} (hinv : Inv codec parse s) (hstep : Step codec parse s t s')
    (hcalls : Calls codec s t zip)
    (hfile : s'.file = (zipClose codec zip.archive .calm (.start s.file)).2.file)
    (hwritten : s'.written =
      writtenBy s.written (zipClose codec zip.archive .calm (.start s.file)).1 s'.file)
    (hsizes : ∀ m ∈ s'.modules, m.bytes.length ≤ int64Max) (hnil : t.ops = []) :
    Inv codec parse s' := by
  refine ⟨hstep.fits, hstep.modules ▸ hstep.valid.main,
    hstep.modules ▸ hcalls.represents.texts, hsizes, ?_⟩
  have hempty := hcalls.represents.survivors_nil_iff
  rw [← hstep.modules] at hempty
  have hunchanged : zip.archive.changed = false := by
    rw [hcalls.changed, hnil]
    rfl
  have hmodules : s'.modules = t.opened s.modules := by
    rw [hstep.modules, Session.model, hnil]
    rfl
  by_cases hoverwrite : t.overwrite = true
  · -- an overwriting session without modules removes the file
    have hnone : s'.modules = [] := by
      rw [hmodules, Session.opened, if_pos hoverwrite]
    have hentries := hempty.mpr hnone
    have hremoved : s'.file = none := by
      rw [hfile, zipClose_empty hentries, hcalls.truncate, hoverwrite]
      rfl
    refine Or.inl ⟨hnone, ?_, Or.inl hremoved⟩
    rw [hwritten, hremoved, writtenBy_empty hentries]
    rfl
  · rw [Bool.not_eq_true] at hoverwrite
    have hsame : s'.modules = s.modules := by
      rw [hmodules, Session.opened, if_neg (by simp [hoverwrite])]
    rw [hsame] at hempty ⊢
    rcases hinv.content with ⟨hnone, hdes, hold⟩ | ⟨hne, blocks, hold, hdes, hblocks⟩
    · have hentries := hempty.mpr hnone
      have hkept : s'.file = s.file := by
        rw [hfile, zipClose_empty hentries, hcalls.truncate, hunchanged, hoverwrite]
        rfl
      refine Or.inl ⟨hnone, ?_, hkept ▸ hold⟩
      rw [hwritten, hdes, writtenBy_empty hentries]
      split <;> rfl
    · have hentries : zip.archive.survivors ≠ [] := mt hempty.mp hne
      rw [zipClose_unchanged hentries hunchanged] at hfile hwritten
      have hdes' : s'.written = s.written := by
        rw [hwritten, hfile]
        show (if (s.file).isSome then s.written else []) = s.written
        rw [hold]
        rfl
      have halley : s'.alleyPath = s.alleyPath := by
        rw [hstep.alleyPath, if_pos hnil]
      rw [hfile, halley, hdes']
      exact Or.inr ⟨hne, blocks, hold, hdes, hblocks⟩

/-- A session with calls writes the file anew. -/
theorem Inv.someCalls {zip : ZipArchive} (hcodec : codec.Lawful) (hinv : Inv codec parse s)
    (hstep : Step codec parse s t s') (hcalls : Calls codec s t zip)
    (hfile : s'.file = (zipClose codec zip.archive .calm (.start s.file)).2.file)
    (hwritten : s'.written =
      writtenBy s.written (zipClose codec zip.archive .calm (.start s.file)).1 s'.file)
    (hrecovers : ∀ des, (zipClose codec zip.archive .calm (.start s.file)).1 = some (some des) →
      ∀ bytes ∈ s'.file, Recovers parse bytes des)
    (hsizes : ∀ m ∈ s'.modules, m.bytes.length ≤ int64Max) (hkeeps : KeepsHeaders s t)
    (hops : t.ops ≠ []) : Inv codec parse s' := by
  refine ⟨hstep.fits, hstep.modules ▸ hstep.valid.main,
    hstep.modules ▸ hcalls.represents.texts, hsizes, ?_⟩
  have hsurvivors := hcalls.represents.survivors
  have hchanged : zip.archive.changed = true := by
    rw [hcalls.changed, decide_eq_true hops]
  have hentries : zip.archive.survivors ≠ [] := by
    rw [hsurvivors]
    intro hnone
    rw [Zip.changed, hnone] at hchanged
    cases hchanged
  have hne : s'.modules ≠ [] := by
    rw [hstep.modules]
    exact mt hcalls.represents.survivors_nil_iff.mpr hentries
  -- the close writes one block for each module
  obtain ⟨blocks, hresult, hcontent, hoffsets, hholds⟩ :=
    zipClose_calm hcodec hentries hchanged
      (show List.Forall₂ (Pending codec (World.start s.file).file) zip.archive.survivors
        (t.model s.modules) from hsurvivors ▸ hcalls.represents.entries)
      hinv.fits (by
        rw [hsurvivors]
        intro e he hgrows
        exact hcalls.grows_iff.mp ⟨e, he, hgrows⟩ hkeeps)
  have halley : s'.alleyPath = t.alleyPath := by
    rw [hstep.alleyPath, if_neg hops]
  rw [hcalls.prefixdata, Option.getD_some] at hcontent hoffsets
  rw [hresult] at hwritten
  have hbytes : s'.file = some (archiveBytes (shebang t.alleyPath) blocks) :=
    hfile.trans hcontent
  rw [halley]
  refine Or.inr ⟨hne, blocks, hbytes, hwritten, hoffsets, hstep.modules ▸ hholds, ?_⟩
  rw [show s'.written = blocks.map Block.de from hwritten]
  exact hrecovers _ hresult _ hbytes

/-- **The step lemma**: a session that keeps the headers keeps the invariant. -/
theorem inv_step (hcodec : codec.Lawful) (hinv : Inv codec parse s)
    (hstep : Step codec parse s t s') (hkeeps : KeepsHeaders s t) : Inv codec parse s' := by
  obtain ⟨zip, hcalls, hfile, hwritten, hrecovers⟩ := hstep.calls hinv
  have hsizes : ∀ m ∈ s'.modules, m.bytes.length ≤ int64Max := by
    rw [hstep.modules]
    apply length_model_le hstep.valid.ops
    unfold Session.opened
    split
    · exact fun m hm => absurd hm (by simp)
    · exact hinv.sizes
  by_cases hnil : t.ops = []
  · exact hinv.noCalls hstep hcalls hfile hwritten hsizes hnil
  · exact hinv.someCalls hcodec hstep hcalls hfile hwritten hrecovers hsizes hkeeps hnil

/-! ## Reading back -/

theorem reads_of_stored_iff (hcodec : codec.Lawful) {archive : ReadArchive}
    {modules : List Module}
    (hstored : List.Forall₂ (Stored codec archive.file) archive.dirents modules)
    (hfits : archive.file.length ≤ int64Max)
    (hsizes : ∀ m ∈ modules, m.bytes.length ≤ int64Max) :
    (∀ (index : Fin archive.dirents.length) (m : Module), modules[index.val]? = some m →
        archive.getEntry codec.inflate index =
          .buffer m.bytes.length (m.bytes.map some) (crc32 0 m.bytes)) ↔
      ∀ m ∈ modules, m.bytes.length ≤ uint32Max := by
  constructor
  · intro hreads m hm
    obtain ⟨i, hi⟩ := List.mem_iff_getElem?.mp hm
    obtain ⟨de, hde, hentry⟩ := forall₂_getElem? hstored.flip hi
    obtain ⟨hlt, rfl⟩ := List.getElem?_eq_some_iff.mp hde
    exact (@getEntry_of_stored_iff _ hcodec archive ⟨i, hlt⟩ m hentry hfits (hsizes m hm)).mp
      (hreads ⟨i, hlt⟩ m hi)
  · intro hshort index m hm
    obtain ⟨m', hm', hentry⟩ := forall₂_getElem? hstored (List.getElem?_eq_getElem index.isLt)
    rw [hm] at hm'
    cases hm'
    have hmem := List.mem_of_getElem? hm
    exact (getEntry_of_stored_iff hcodec hentry hfits (hsizes m hmem)).mpr (hshort m hmem)

theorem reading_ofDirectory (dirents : List Dirent) (alleyPath : Text) (bytes : Bytes) :
    ((ZipArchive.ofDirectory dirents alleyPath).reading bytes) = ⟨bytes, dirents⟩ := by
  simp [ZipArchive.reading, ZipArchive.ofDirectory, originalEntries, List.filterMap_map]

/-- A file that stores the modules reads back as them if they are short. -/
theorem readsBack_of_stored_iff (hcodec : codec.Lawful) {bytes : Bytes} {des : List Dirent}
    {modules : List Module} (hbytes : bytes ≠ []) (hmodules : modules ≠ [])
    (hfits : bytes.length ≤ int64Max) (hsizes : ∀ m ∈ modules, m.bytes.length ≤ int64Max)
    (hmain : ∀ m ∈ modules.head?, m.name = allexeMain)
    (htexts : ∀ m ∈ modules, nameText m.name = m.name)
    (hstored : List.Forall₂ (Stored codec bytes) des modules)
    (hrecovers : Recovers parse bytes des) :
    ReadsBack codec parse bytes modules ↔ ∀ m ∈ modules, m.bytes.length ≤ uint32Max := by
  obtain ⟨dirents, hparse, hsame⟩ := hrecovers
  have hstored' := stored_of_recovers hstored hsame
  have hopen : ∀ alleyPath, openForReading parse alleyPath (some bytes) =
      some (.ofDirectory dirents alleyPath) := by
    intro alleyPath
    have hfiles : (ZipArchive.ofDirectory dirents alleyPath).files ≠ [] := by
      rw [(ofDirectory_represents alleyPath hstored' htexts).files]
      simpa using hmodules
    unfold openForReading
    rw [openAllexe_of_parse alleyPath hbytes hparse (head?_filename hstored' hmain)]
    dsimp only
    rw [if_neg hfiles]
  have hreads :=
    @reads_of_stored_iff codec hcodec ⟨bytes, dirents⟩ modules hstored' hfits hsizes
  constructor
  · intro hback
    obtain ⟨zip, hzip, -, -, hentries⟩ := hback []
    rw [hopen] at hzip
    cases hzip
    rw [reading_ofDirectory] at hentries
    exact hreads.mp hentries
  · intro hshort alleyPath
    refine ⟨_, hopen alleyPath, (ofDirectory_represents alleyPath hstored' htexts).files, ?_, ?_⟩
    · rw [reading_ofDirectory]
      exact hstored'.length_eq
    · rw [reading_ofDirectory]
      exact hreads.mpr hshort

/-- A file with the invariant round-trips if its modules are short. -/
theorem Inv.roundTrips_iff (hcodec : codec.Lawful) (hinv : Inv codec parse s) :
    RoundTrips codec parse s ↔ s.Short := by
  rcases hinv.content with
    ⟨hempty, -, hfile⟩ | ⟨hne, blocks, hfile, hdes, hoffsets, hholds, hrecovers⟩
  · constructor
    · intro _ m hm
      rw [hempty] at hm
      cases hm
    · exact fun _ => ⟨fun _ => hfile, fun hne => absurd hempty hne⟩
  · have hback := readsBack_of_stored_iff hcodec (archiveBytes_ne_nil _ _) hne
      (hinv.fits _ hfile) hinv.sizes hinv.main hinv.texts (hdes ▸ stored_of_layout hoffsets hholds)
      hrecovers
    constructor
    · intro hround
      obtain ⟨blocks', hfile', -, -, hreads⟩ := hround.archive hne
      rw [hfile] at hfile'
      rw [← Option.some.inj hfile'] at hreads
      exact hback.mp hreads
    · intro hshort
      exact ⟨fun hempty => absurd hempty hne,
        fun _ => ⟨blocks, hfile, hdes, hoffsets, hback.mpr hshort⟩⟩

/-- A file reads back as one list of modules only. -/
theorem readsBack_unique {bytes : Bytes} {modules modules' : List Module}
    (h : ReadsBack codec parse bytes modules) (h' : ReadsBack codec parse bytes modules') :
    modules = modules' := by
  obtain ⟨zip, hopen, hfiles, hlength, hentries⟩ := h []
  obtain ⟨zip', hopen', hfiles', hlength', hentries'⟩ := h' []
  rw [hopen] at hopen'
  cases hopen'
  apply List.ext_getElem (hlength.symm.trans hlength')
  intro i hi hi'
  have hname : modules[i].name = modules'[i].name := by
    have hnames := hfiles.symm.trans hfiles'
    have hat := congrArg (fun names => names[i]?) hnames
    simpa [hi, hi'] using hat
  have hbytes : modules[i].bytes = modules'[i].bytes := by
    have hread := hentries ⟨i, by omega⟩ modules[i] (List.getElem?_eq_getElem hi)
    have hread' := hentries' ⟨i, by omega⟩ modules'[i] (List.getElem?_eq_getElem hi')
    rw [hread] at hread'
    exact List.map_injective_iff.mpr (Option.some_injective UInt8) (EntryRead.buffer.inj hread').2.1
  cases hm : modules[i]
  cases hm' : modules'[i]
  rw [hm, hm'] at hname hbytes
  cases hname
  cases hbytes
  rfl

/-! ## Sessions that grow a header -/

/-- A session that does not keep the headers leaves the file as it was. -/
theorem file_of_not_keepsHeaders (hcodec : codec.Lawful) (hinv : Inv codec parse s)
    (hstep : Step codec parse s t s') (hkeeps : ¬ KeepsHeaders s t) : s'.file = s.file := by
  obtain ⟨zip, hcalls, hfile, -⟩ := hstep.calls hinv
  have hgrows := hcalls.grows_iff.mpr hkeeps
  have hsurvivors := hcalls.represents.survivors
  have hchanged : zip.archive.changed = true := by
    obtain ⟨e, he, -, -, buffer, hbuffer, -⟩ := hgrows
    apply List.any_eq_true.mpr
    refine ⟨e, he, ?_⟩
    rw [ZipEntry.hasChanges, show e.source = some buffer from hbuffer]
    rfl
  have hentries : zip.archive.survivors ≠ [] := by
    rw [hsurvivors]
    obtain ⟨e, he, -⟩ := hgrows
    exact List.ne_nil_of_mem he
  rw [hfile]
  exact (zipClose_grows hcodec hentries hchanged
    (show List.Forall₂ (Pending codec (World.start s.file).file) zip.archive.survivors
      (t.model s.modules) from hsurvivors ▸ hcalls.represents.entries)
    hinv.fits (hsurvivors ▸ hgrows)).2

/-- Such a session meant a different list of modules. -/
theorem modules_ne_of_not_keepsHeaders (hcodec : codec.Lawful) (hinv : Inv codec parse s)
    (hstep : Step codec parse s t s') (hkeeps : ¬ KeepsHeaders s t) :
    s.modules ≠ [] ∧ s'.modules ≠ s.modules := by
  unfold KeepsHeaders at hkeeps
  push Not at hkeeps
  obtain ⟨-, idx, de, m, -, hde, hlarge, -, hm, hsmall⟩ := hkeeps
  rcases hinv.content with ⟨-, hnone, -⟩ | ⟨hne, blocks, -, hdes, -, hholds, -⟩
  · rw [hnone] at hde
    cases hde
  · refine ⟨hne, fun hsame => ?_⟩
    rw [hdes, List.getElem?_map] at hde
    obtain ⟨b, hb, rfl⟩ := Option.map_eq_some_iff.mp hde
    obtain ⟨m', hm', hheld⟩ := forall₂_getElem? hholds hb
    rw [← hstep.modules, hsame, hm'] at hm
    cases hm
    have hbound := hheld.encodes.length_le hcodec
    have hsize := hheld.compSize
    have hlt := deflateBound_lt hsmall
    omega

/-- A session leaves a file that round-trips exactly when it keeps the headers and the
modules are short. -/
theorem roundTrips_step_iff (hcodec : codec.Lawful) (hinv : Inv codec parse s) (hshort : s.Short)
    (hstep : Step codec parse s t s') :
    RoundTrips codec parse s' ↔ KeepsHeaders s t ∧ KeepsShort s t := by
  have hmodules : s'.Short ↔ KeepsShort s t := by
    unfold State.Short KeepsShort
    rw [hstep.modules]
  constructor
  · intro hround
    have hkeeps : KeepsHeaders s t := by
      by_contra hkeeps
      obtain ⟨hne, hdiffers⟩ := modules_ne_of_not_keepsHeaders hcodec hinv hstep hkeeps
      have hfile := file_of_not_keepsHeaders hcodec hinv hstep hkeeps
      obtain ⟨blocks, hold, -, -, hreads⟩ := ((hinv.roundTrips_iff hcodec).mpr hshort).archive hne
      by_cases hempty : s'.modules = []
      · rcases hround.empty hempty with hnone | hnil
        · rw [hfile, hold] at hnone
          cases hnone
        · rw [hfile, hold] at hnil
          exact archiveBytes_ne_nil _ _ (Option.some.inj hnil)
      · obtain ⟨blocks', hnew, -, -, hreads'⟩ := hround.archive hempty
        rw [hfile, hold] at hnew
        rw [← Option.some.inj hnew] at hreads'
        exact hdiffers (readsBack_unique hreads' hreads)
    exact ⟨hkeeps, hmodules.mp
      (((inv_step hcodec hinv hstep hkeeps).roundTrips_iff hcodec).mp hround)⟩
  · rintro ⟨hkeeps, hpieces⟩
    exact ((inv_step hcodec hinv hstep hkeeps).roundTrips_iff hcodec).mpr (hmodules.mpr hpieces)

/-! ## Runs -/

theorem inv_start {file : Option Bytes} (hfile : file = none ∨ file = some [])
    (alleyPath : Text) : Inv codec parse (State.start file alleyPath) where
  fits := by
    rcases hfile with rfl | rfl
    · exact fun _ h => by cases h
    · rintro _ ⟨⟩
      exact Nat.zero_le _
  main := fun _ h => by cases h
  texts := fun _ h => by cases h
  sizes := fun _ h => by cases h
  content := Or.inl ⟨rfl, rfl, hfile⟩

theorem short_start (file : Option Bytes) (alleyPath : Text) :
    (State.start file alleyPath).Short := fun _ h => by cases h

theorem inv_of_run (hcodec : codec.Lawful) {file : Option Bytes}
    (hfile : file = none ∨ file = some []) {alleyPath : Text} {sessions : List Session}
    (hrun : Trace (fun s t s' => Step codec parse s t s' ∧ KeepsHeaders s t ∧ KeepsShort s t)
      (State.start file alleyPath) sessions s) : Inv codec parse s ∧ s.Short := by
  apply hrun.invariant (fun _ s => Inv codec parse s ∧ s.Short)
    ⟨inv_start hfile alleyPath, short_start file alleyPath⟩
  rintro done s t s' ⟨hinv, -⟩ ⟨hstep, hkeeps, hpieces⟩
  refine ⟨inv_step hcodec hinv hstep hkeeps, ?_⟩
  unfold State.Short
  rw [hstep.modules]
  exact hpieces

/-- **Sessions round-trip**: in a run of sessions on one file every session leaves
the archive of the modules, if and only if every session keeps the headers and leaves
no module that is longer than what zlib takes at once. -/
theorem sessions_roundTrip_iff (hcodec : codec.Lawful) {file : Option Bytes}
    (hfile : file = none ∨ file = some []) {alleyPath : Text} {sessions : List Session} :
    Trace (fun s t s' => Step codec parse s t s' ∧ RoundTrips codec parse s')
        (State.start file alleyPath) sessions s ↔
      Trace (fun s t s' => Step codec parse s t s' ∧ KeepsHeaders s t ∧ KeepsShort s t)
        (State.start file alleyPath) sessions s := by
  apply trace_congr
  intro done u t v hrun
  obtain ⟨hinv, hshort⟩ := inv_of_run hcodec hfile hrun
  exact and_congr_right fun hstep => roundTrips_step_iff hcodec hinv hshort hstep

/-! ## Runs that exist -/

/-- The state after a session whose calls left `zip`. -/
def State.after (codec : Codec) (s : State) (t : Session) (zip : ZipArchive) : State :=
  let closed := zipClose codec zip.archive .calm (.start s.file)
  { file := closed.2.file
    written := writtenBy s.written closed.1 closed.2.file
    modules := t.model s.modules
    alleyPath := if t.ops = [] then s.alleyPath else t.alleyPath }

theorem step_after {zip zip' : ZipArchive}
    (hopen : openAllexe parse t.alleyPath s.file t.overwrite = some zip)
    (hops : applyOps zip t.ops = some zip') (hvalid : t.Valid s.modules)
    (hrecovers : ∀ des, (zipClose codec zip'.archive .calm (.start s.file)).1 = some (some des) →
      ∀ bytes ∈ (s.after codec t zip').file, Recovers parse bytes des)
    (hfits : ∀ bytes ∈ (s.after codec t zip').file, bytes.length ≤ int64Max) :
    Step codec parse s t (s.after codec t zip') where
  valid := hvalid
  modules := rfl
  alleyPath := rfl
  runs := by
    refine ⟨(zipClose codec zip'.archive .calm (.start s.file)).1, ?_, rfl, hrecovers⟩
    unfold Session.run
    rw [hopen]
    dsimp only
    rw [hops]
    rfl
  fits := hfits

/-- A session that adds the main module. -/
def addMain (alleyPath : Text) (buffer : Buffer) : Session :=
  ⟨alleyPath, false, [.add allexeMain buffer]⟩

/-- A session that updates the first module. -/
def updateMain (alleyPath : Text) (buffer : Buffer) : Session :=
  ⟨alleyPath, false, [.update 0 buffer]⟩

theorem applyOps_addMain (alleyPath : Text) (buffer : Buffer) :
    ∃ zip, applyOps (.fresh false alleyPath) (addMain alleyPath buffer).ops = some zip := by
  obtain ⟨zip, hadd⟩ := addEntry_main_fresh false alleyPath buffer
  refine ⟨zip, ?_⟩
  simp only [addMain, applyOps, applyOp, hadd]

/-- Adding the main module to a file that is not there, when it fits. -/
theorem exists_step_addMain (hcodec : codec.Lawful) {alleyPath : Text} {buffer : Buffer}
    (halley : 0 ∉ alleyPath)
    (hfits : alleyPath.length + deflateBound buffer.bytes.length + 239 ≤ int64Max) :
    ∃ parse s, Step codec parse (.start none []) (addMain alleyPath buffer) s ∧
      KeepsHeaders (.start none []) (addMain alleyPath buffer) ∧
      s.modules = [⟨allexeMain, buffer.bytes⟩] := by
  have hlength : buffer.bytes.length ≤ deflateBound buffer.bytes.length := by
    unfold deflateBound
    omega
  have hvalid : (addMain alleyPath buffer).Valid [] := by
    refine ⟨halley, ?_, ?_⟩
    · intro op hop
      rw [List.mem_singleton.mp hop]
      refine ⟨show allexeMain.length ≤ 0xFFFF by decide, hlength.trans (by omega), ?_⟩
      rintro name buffer ⟨⟩
      exact ⟨by decide, by decide⟩
    · rintro m ⟨⟩
      rfl
  have hkeeps : KeepsHeaders (.start none []) (addMain alleyPath buffer) :=
    fun _ _ _ _ _ hde => by cases hde
  obtain ⟨zip, hops⟩ := applyOps_addMain alleyPath buffer
  have hopens : Opens codec (fun _ => none) (.start none []) (addMain alleyPath buffer)
      (.fresh false alleyPath) := opens_fresh (Or.inr (Or.inl rfl)) rfl fun _ => rfl
  have hcalls := hopens.calls hvalid hops
  have hsurvivors := hcalls.represents.survivors
  -- nothing was there before, so no header can outgrow its place
  have hentries : zip.archive.survivors ≠ [] :=
    mt hcalls.represents.survivors_nil_iff.mp (List.cons_ne_nil _ _)
  obtain ⟨blocks, hresult, hfile, -, hholds⟩ :=
    zipClose_calm hcodec hentries hcalls.changed
      (show List.Forall₂ (Pending codec (World.start none).file) zip.archive.survivors
        [⟨allexeMain, buffer.bytes⟩] from hsurvivors ▸ hcalls.represents.entries)
      (fun _ h => by cases h)
      (by
        rw [hsurvivors]
        intro e he hgrows
        exact hcalls.grows_iff.mp ⟨e, he, hgrows⟩ hkeeps)
  -- the file stays within the range of file offsets
  have hsize : (archiveBytes (zip.archive.prefixdata.getD []) blocks).length ≤ int64Max := by
    rw [hcalls.prefixdata]
    cases hholds with
    | cons hb hrest =>
        cases hrest
        apply (length_archiveBytes_single hcodec hb).trans
        have hname : allexeMain.length = 7 := by decide
        have hfront : (shebang alleyPath).length = alleyPath.length + 3 := by
          simp [shebang, ascii]
        show (shebang alleyPath).length + deflateBound buffer.bytes.length +
          2 * allexeMain.length + 222 ≤ int64Max
        omega
  refine ⟨fun _ => some (blocks.map Block.de), State.after codec (.start none [])
    (addMain alleyPath buffer) zip, ?_, hkeeps, rfl⟩
  apply step_after (openAllexe_fresh _ _ (Or.inr (Or.inl rfl))) hops hvalid
  · intro des hdes bytes _
    cases hresult.symm.trans hdes
    exact ⟨_, rfl, List.forall₂_same.mpr fun de _ => ⟨rfl, rfl, rfl, rfl, rfl, rfl, rfl⟩⟩
  · intro bytes hbytes
    cases hfile.symm.trans hbytes
    exact hsize

/-- Updating the main module of a file in a session that does not keep the headers. -/
theorem exists_step_updateMain (hcodec : codec.Lawful) (hinv : Inv codec parse s)
    (hmodules : s.modules ≠ []) {alleyPath : Text} {buffer : Buffer} (halley : 0 ∉ alleyPath)
    (hsize : buffer.bytes.length ≤ int64Max)
    (hkeeps : ¬ KeepsHeaders s (updateMain alleyPath buffer)) :
    ∃ s', Step codec parse s (updateMain alleyPath buffer) s' := by
  have hvalid : (updateMain alleyPath buffer).Valid s.modules := by
    refine ⟨halley, ?_, ?_⟩
    · intro op hop
      rw [List.mem_singleton.mp hop]
      refine ⟨trivial, hsize, ?_⟩
      rintro name buffer ⟨⟩
    · intro m hm
      have hmain := hinv.main
      cases hlist : s.modules with
      | nil => exact absurd hlist hmodules
      | cons first rest =>
          rw [hlist] at hm hmain
          cases hm
          exact hmain first rfl
  obtain ⟨zip, hopens⟩ := hinv.open (updateMain alleyPath buffer)
  obtain ⟨zip', hops⟩ : ∃ zip', applyOps zip (updateMain alleyPath buffer).ops = some zip' := by
    cases hentries : zip.archive.entries with
    | nil => exact absurd ((forall₂_nil_iff hopens.represents.entries).mp hentries) hmodules
    | cons e rest =>
        simp [updateMain, applyOps, applyOp, ZipArchive.updateData, Zip.fileReplace, hentries]
  have hcalls := hopens.calls hvalid hops
  have hgrows := hcalls.grows_iff.mpr hkeeps
  have hsurvivors := hcalls.represents.survivors
  -- the close gives up and leaves the file
  have hclosed := zipClose_grows hcodec
    (by
      rw [hsurvivors]
      obtain ⟨e, he, -⟩ := hgrows
      exact List.ne_nil_of_mem he)
    hcalls.changed
    (show List.Forall₂ (Pending codec (World.start s.file).file) zip'.archive.survivors
      ((updateMain alleyPath buffer).model s.modules) from
        hsurvivors ▸ hcalls.represents.entries)
    hinv.fits (hsurvivors ▸ hgrows)
  refine ⟨_, step_after hopens.opens hops hvalid ?_ ?_⟩
  · intro des hdes
    rw [hclosed.1] at hdes
    cases hdes
  · intro bytes hbytes
    exact hinv.fits bytes (hclosed.2.symm.trans hbytes)

/-- A main module that takes 64 bits for its compressed size, though not for its length,
cannot be updated to one that is small. -/
theorem exists_lossy_run (hcodec : codec.Lawful) {alleyPath : Text} {large small : Buffer}
    (halley : 0 ∉ alleyPath)
    (hfits : alleyPath.length + deflateBound large.bytes.length + 239 ≤ int64Max)
    (hlarge : large.bytes.length = uint32Max)
    (hdeflated : uint32Max ≤ (codec.deflate large.bytes).length)
    (hsmall : small.bytes.length ≤ maxSize .deflate) :
    ∃ parse s s', Step codec parse (.start none []) (addMain alleyPath large) s ∧
      RoundTrips codec parse s ∧ Step codec parse s (updateMain alleyPath small) s' ∧
      ¬ RoundTrips codec parse s' := by
  obtain ⟨parse, s, hadd, hkeeps, hmodules⟩ := exists_step_addMain hcodec halley hfits
  have hinv : Inv codec parse s :=
    inv_step hcodec (inv_start (Or.inl rfl) []) hadd hkeeps
  have hshort : s.Short := by
    intro m hm
    rw [hmodules] at hm
    rw [List.mem_singleton.mp hm]
    exact hlarge.le
  have hne : s.modules ≠ [] := by
    rw [hmodules]
    exact List.cons_ne_nil _ _
  -- the stored sizes need 64 bits in the header, the new ones do not
  have hgrows : ¬ KeepsHeaders s (updateMain alleyPath small) := by
    intro hkeeps
    rcases hinv.content with ⟨hempty, -⟩ | ⟨-, blocks, -, hdes, -, hholds, -⟩
    · exact hne hempty
    · rw [hmodules] at hholds
      cases hholds with
      | @cons b _ _ _ hb hrest =>
          cases hrest
          have hcompSize : uint32Max ≤ b.de.compSize := by
            have hencodes := hb.encodes
            rw [hb.compSize]
            unfold Encodes at hencodes
            split at hencodes
            · exact absurd (hlarge ▸ hencodes.2) (by decide)
            · rw [hencodes]
              exact hdeflated
            · exact hencodes.elim
          have hlt := hkeeps rfl 0 b.de ⟨allexeMain, small.bytes⟩ small
            (by rw [hdes]; rfl) hcompSize List.mem_cons_self (by
              rw [Session.model, Session.opened, hmodules]
              rfl)
          exact absurd hsmall (Nat.not_le.mpr hlt)
  have hsmall' : small.bytes.length ≤ int64Max := by
    simp only [maxSize] at hsmall
    simp only [int64Max]
    omega
  obtain ⟨s', hupdate⟩ := exists_step_updateMain hcodec hinv hne halley hsmall' hgrows
  refine ⟨parse, s, s', hadd, (hinv.roundTrips_iff hcodec).mpr hshort, hupdate, fun hround => ?_⟩
  exact hgrows ((roundTrips_step_iff hcodec hinv hshort hupdate).mp hround).1

end Steps

/-- The smallest bitcode file: its magic number. -/
def bitcode : Bytes :=
  [0x42, 0x43, 0xC0, 0xDE]

/-- A compressor that stores, one byte longer. -/
def storingCodec : Codec where
  deflate data := 1 :: data
  endsInFirstRead _ := true
  inflate
    | 1 :: data => (data, .finished)
    | _ => ([], .error)

theorem storingCodec_lawful : storingCodec.Lawful where
  inflate_deflate := fun _ => rfl
  deflate_ne_nil := fun _ => List.cons_ne_nil _ _
  length_deflate_le := fun data => by
    simp only [storingCodec, deflateBound, List.length_cons]
    omega

/-! ### Two sessions -/

/-- The smallest bitcode file as the main module of a new allexe. -/
def newAllexe : Session :=
  addMain (ascii "/alley") ⟨bitcode, 0, 0⟩

/-- The open archive of `newAllexe` after its call. -/
def addedArchive : ZipArchive :=
  ((ZipArchive.fresh false (ascii "/alley")).addEntry ⟨bitcode, 0, 0⟩ allexeMain).2

/-- The entry that `newAllexe` writes. -/
def addedEntry : Dirent :=
  { Dirent.init with
    filename := allexeMain
    compMethod := .store
    crc := crc32 0 bitcode
    compSize := bitcode.length
    uncompSize := bitcode.length
    offset := (shebang (ascii "/alley")).length }

/-- The file that `newAllexe` leaves. -/
def addedFile : Bytes :=
  archiveBytes (shebang (ascii "/alley")) [⟨addedEntry, false, bitcode⟩]

theorem addEntry_added :
    (ZipArchive.fresh false (ascii "/alley")).addEntry ⟨bitcode, 0, 0⟩ allexeMain =
      (true, addedArchive) :=
  Prod.ext (by decide +kernel) rfl

theorem zipClose_addedArchive :
    (zipClose storingCodec addedArchive.archive .calm (.start none)).1 = some (some [addedEntry]) ∧
      (zipClose storingCodec addedArchive.archive .calm (.start none)).2.file = some addedFile := by
  decide +kernel

theorem valid_newAllexe : newAllexe.Valid [] := by
  refine ⟨by decide, ?_, ?_⟩
  · intro op hop
    rw [List.mem_singleton.mp hop]
    refine ⟨show allexeMain.length ≤ 0xFFFF by decide, by decide, ?_⟩
    rintro name buffer ⟨⟩
    exact ⟨by decide, by decide⟩
  · rintro m ⟨⟩
    rfl

theorem applyOps_newAllexe :
    applyOps (.fresh false (ascii "/alley")) newAllexe.ops = some addedArchive := by
  simp only [newAllexe, addMain, applyOps, applyOp, addEntry_added]

/-- A larger main module and a second module. -/
def growAllexe : Session :=
  ⟨ascii "/alley", false,
    [.update 0 ⟨bitcode ++ bitcode, 0, 0⟩, .add (ascii "lib.bc") ⟨bitcode, 0, 0⟩]⟩

/-- The open archive of `growAllexe` after its calls. -/
def grownArchive : ZipArchive :=
  (((ZipArchive.ofDirectory [addedEntry] (ascii "/alley")).updateData 0
    ⟨bitcode ++ bitcode, 0, 0⟩).2.addEntry ⟨bitcode, 0, 0⟩ (ascii "lib.bc")).2

/-- The entries that `growAllexe` writes. -/
def grownEntries : List Dirent :=
  [{ addedEntry with
      crc := crc32 0 (bitcode ++ bitcode)
      compSize := 8
      uncompSize := 8 },
    { addedEntry with
      filename := ascii "lib.bc"
      offset := 54 }]

theorem zipClose_grownArchive :
    (zipClose storingCodec grownArchive.archive .calm (.start (some addedFile))).1 =
        some (some grownEntries) ∧
      (zipClose storingCodec grownArchive.archive .calm (.start (some addedFile))).2.file ≠
        some addedFile ∧
      ∀ bytes ∈ (zipClose storingCodec grownArchive.archive .calm
        (.start (some addedFile))).2.file, bytes.length ≤ int64Max := by
  decide +kernel

theorem valid_growAllexe : growAllexe.Valid [⟨allexeMain, bitcode⟩] := by
  refine ⟨by decide, ?_, ?_⟩
  · intro op hop
    rcases List.mem_cons.mp hop with rfl | hop
    · exact ⟨trivial, by decide, fun _ _ h => by cases h⟩
    · rw [List.mem_singleton.mp hop]
      refine ⟨show (ascii "lib.bc").length ≤ 0xFFFF by decide, by decide, ?_⟩
      rintro name buffer ⟨⟩
      exact ⟨by decide, by decide⟩
  · rintro m ⟨⟩
    rfl

theorem applyOps_growAllexe :
    applyOps (.ofDirectory [addedEntry] (ascii "/alley")) growAllexe.ops = some grownArchive := by
  have hupdate : (ZipArchive.ofDirectory [addedEntry] (ascii "/alley")).updateData 0
      ⟨bitcode ++ bitcode, 0, 0⟩ = (true, ((ZipArchive.ofDirectory [addedEntry]
        (ascii "/alley")).updateData 0 ⟨bitcode ++ bitcode, 0, 0⟩).2) := rfl
  have hadd : ((ZipArchive.ofDirectory [addedEntry] (ascii "/alley")).updateData 0
      ⟨bitcode ++ bitcode, 0, 0⟩).2.addEntry ⟨bitcode, 0, 0⟩ (ascii "lib.bc") =
        (true, grownArchive) :=
    Prod.ext (by decide +kernel) rfl
  simp only [growAllexe, applyOps, applyOp]
  rw [hupdate]
  dsimp only
  rw [hadd]

/-- What the two sessions find in the file. -/
def foundEntries (bytes : Bytes) : Option (List Dirent) :=
  if bytes = addedFile then some [addedEntry] else some grownEntries

theorem foundEntries_addedFile : foundEntries addedFile = some [addedEntry] :=
  if_pos rfl

/-- The state that `newAllexe` leaves. -/
def addedState : State :=
  State.after storingCodec (.start none []) newAllexe addedArchive

theorem file_addedState : addedState.file = some addedFile :=
  zipClose_addedArchive.2

theorem step_newAllexe : Step storingCodec foundEntries (.start none []) newAllexe addedState := by
  apply step_after (openAllexe_fresh _ _ (Or.inr (Or.inl rfl))) applyOps_newAllexe valid_newAllexe
  · intro des hdes bytes hbytes
    cases zipClose_addedArchive.1.symm.trans hdes
    cases file_addedState.symm.trans hbytes
    exact ⟨_, foundEntries_addedFile,
      List.forall₂_same.mpr fun de _ => ⟨rfl, rfl, rfl, rfl, rfl, rfl, rfl⟩⟩
  · intro bytes hbytes
    cases file_addedState.symm.trans hbytes
    decide +kernel

theorem keepsHeaders_newAllexe : KeepsHeaders (.start none []) newAllexe :=
  fun _ _ _ _ _ hde => by cases hde

theorem keepsShort_newAllexe : KeepsShort (.start none []) newAllexe := by
  intro m hm
  rw [List.mem_singleton.mp hm]
  decide

theorem step_growAllexe :
    Step storingCodec foundEntries addedState growAllexe
      (addedState.after storingCodec growAllexe grownArchive) := by
  obtain ⟨hresult, hother, hfits⟩ := zipClose_grownArchive
  have hopen : openAllexe foundEntries growAllexe.alleyPath addedState.file growAllexe.overwrite =
      some (.ofDirectory [addedEntry] (ascii "/alley")) := by
    rw [file_addedState]
    refine openAllexe_of_parse _ (archiveBytes_ne_nil _ _) foundEntries_addedFile ?_
    rintro _ ⟨⟩
    rfl
  have hafter : (addedState.after storingCodec growAllexe grownArchive).file =
      (zipClose storingCodec grownArchive.archive .calm (.start (some addedFile))).2.file := by
    rw [← file_addedState]
    rfl
  apply step_after hopen applyOps_growAllexe valid_growAllexe
  · intro des hdes bytes hbytes
    rw [file_addedState] at hdes
    cases hresult.symm.trans hdes
    refine ⟨grownEntries, if_neg ?_,
      List.forall₂_same.mpr fun de _ => ⟨rfl, rfl, rfl, rfl, rfl, rfl, rfl⟩⟩
    rintro rfl
    rw [hafter] at hbytes
    exact hother hbytes
  · rw [hafter]
    exact hfits

theorem keepsHeaders_growAllexe : KeepsHeaders addedState growAllexe := by
  intro _ idx de _ _ hde hlarge
  have hwritten : addedState.written = [addedEntry] := by
    show writtenBy [] (zipClose storingCodec addedArchive.archive .calm (.start none)).1 _ = _
    rw [zipClose_addedArchive.1]
    rfl
  rw [hwritten] at hde
  rw [List.mem_singleton.mp (List.mem_of_getElem? hde)] at hlarge
  exact absurd hlarge (by decide)

theorem keepsShort_growAllexe : KeepsShort addedState growAllexe := by
  intro m hm
  rcases List.mem_cons.mp hm with rfl | hm
  · decide
  · rw [List.mem_singleton.mp hm]
    decide

theorem sessions_roundTrip_iff_growAllexe :
    ∃ parse s, Trace (fun s t s' => Step storingCodec parse s t s' ∧
        RoundTrips storingCodec parse s') (.start none []) [newAllexe, growAllexe] s ∧
      s.modules = [⟨allexeMain, bitcode ++ bitcode⟩, ⟨ascii "lib.bc", bitcode⟩] := by
  refine ⟨foundEntries, addedState.after storingCodec growAllexe grownArchive,
    (sessions_roundTrip_iff storingCodec_lawful (Or.inl rfl)).mpr ?_, rfl⟩
  exact (Trace.nil.snoc ⟨step_newAllexe, keepsHeaders_newAllexe, keepsShort_newAllexe⟩).snoc
    ⟨step_growAllexe, keepsHeaders_growAllexe, keepsShort_growAllexe⟩

/-- Bytes of any greater length begin with given ones. -/
theorem exists_padded {front : Bytes} {n : Nat} (h : front.length ≤ n) :
    ∃ data, front <+: data ∧ data.length = n := by
  refine ⟨front ++ List.replicate (n - front.length) 0, List.prefix_append _ _, ?_⟩
  rw [List.length_append, List.length_replicate]
  omega

/-- Whatever the compressor, a bitcode file of 4 GiB that is added as the main module
does not read back. -/
theorem large_module_is_unreadable :
    storingCodec.Lawful ∧ ∀ codec : Codec, codec.Lawful →
      ∃ data parse s, bitcode <+: data ∧ data.length = 2 ^ 32 ∧
        Trace (Step codec parse) (.start none [])
          [addMain (ascii "/usr/bin/alley") ⟨data, 0, 0⟩] s ∧
        ¬ RoundTrips codec parse s := by
  refine ⟨storingCodec_lawful, fun codec hcodec => ?_⟩
  obtain ⟨data, hdata, hlength⟩ := exists_padded (show bitcode.length ≤ 2 ^ 32 by decide)
  obtain ⟨parse, s, hstep, hkeeps, hmodules⟩ := exists_step_addMain hcodec
    (show 0 ∉ ascii "/usr/bin/alley" by decide)
    (show (ascii "/usr/bin/alley").length +
        deflateBound (Buffer.mk data 0 0).bytes.length + 239 ≤ int64Max by
      rw [hlength]
      decide)
  refine ⟨data, parse, s, hdata, hlength, Trace.nil.snoc hstep, ?_⟩
  intro hround
  have hinv := inv_step hcodec (inv_start (Or.inl rfl) []) hstep hkeeps
  have hlarge := (hinv.roundTrips_iff hcodec).mp hround ⟨allexeMain, data⟩ (by rw [hmodules]; simp)
  rw [hlength] at hlarge
  exact absurd hlarge (by decide)

/-- Whatever the compressor, some module whose length just has 32 bits can be added as
the main module and read back, and not be updated to a small one afterwards. -/
theorem small_update_is_lost {codec : Codec} (hcodec : codec.Lawful) :
    ∃ data parse s s', data.length = uint32Max ∧
      Step codec parse (.start none [])
        (addMain (ascii "/usr/bin/alley") ⟨data, 0, 0⟩) s ∧ RoundTrips codec parse s ∧
      Step codec parse s (updateMain (ascii "/usr/bin/alley") ⟨bitcode, 0, 0⟩) s' ∧
      ¬ RoundTrips codec parse s' := by
  have hinjective : Function.Injective codec.deflate := by
    intro e e' h
    have hinflated := congrArg codec.inflate h
    rw [hcodec.inflate_deflate, hcodec.inflate_deflate] at hinflated
    exact (Prod.mk.inj hinflated).1
  -- no codec shortens every module of this length
  obtain ⟨data, hlength, hdeflated⟩ :=
    Incompressible.exists_bytes_not_shortened hinjective uint32Max
  obtain ⟨parse, s, s', hadd, hround, hupdate, hlost⟩ := exists_lossy_run hcodec
    (show 0 ∉ ascii "/usr/bin/alley" by decide)
    (show (ascii "/usr/bin/alley").length +
        deflateBound (Buffer.mk data 0 0).bytes.length + 239 ≤ int64Max by
      rw [hlength]
      decide)
    hlength hdeflated
    (show (Buffer.mk bitcode 0 0).bytes.length ≤ maxSize .deflate by decide)
  exact ⟨data, parse, s, s', hlength, hadd, hround, hupdate, hlost⟩

end Archive
end AllvmTools
