import AllvmTools.Library.ListsInStep
import AllvmTools.Archive.CloseSpec

/-!
# An open archive as a list of modules

What `Allexe::addModule` and `Allexe::updateModule` do to an open archive, against
the list of its modules: an addition goes to the end, an update replaces the
bytes in place.

* `Represents.applyOp` — a successful call keeps the archive in step with the list.
* `ofDirectory_represents` — so does opening a file that stores the modules.
* `touched_of_applyOps` — only an update gives an entry of the file new data.
-/

namespace AllvmTools
namespace Archive

open Library Library.Text Library.Files

/-! ## Calls -/

/-- A call on an open allexe. -/
inductive ArchiveOp where
  /-- `Allexe::addModule`. -/
  | add (name : Text) (buffer : Buffer)
  /-- `Allexe::updateModule`. -/
  | update (idx : Nat) (buffer : Buffer)
deriving DecidableEq, Repr

/-- A call that succeeds. -/
def applyOp (zip : ZipArchive) : ArchiveOp → Option ZipArchive
  | .add name buffer =>
      match zip.addEntry buffer name with
      | (true, zip) => some zip
      | (false, _) => none
  | .update idx buffer =>
      match zip.updateData idx buffer with
      | (true, zip) => some zip
      | (false, _) => none

/-- The calls of a session, all of which succeed. -/
def applyOps (zip : ZipArchive) : List ArchiveOp → Option ZipArchive
  | [] => some zip
  | op :: rest =>
      match applyOp zip op with
      | none => none
      | some zip => applyOps zip rest

/-- What a call means for the list of modules. -/
def ArchiveOp.model (modules : List Module) : ArchiveOp → List Module
  | .add name buffer => modules ++ [⟨name, buffer.bytes⟩]
  | .update idx buffer => modules.modify idx fun m => { m with bytes := buffer.bytes }

/-- A name fits the length field of a zip header. -/
def ArchiveOp.Fits : ArchiveOp → Prop
  | .add name _ => name.length ≤ 0xFFFF
  | .update _ _ => True

/-- The open archive stands for the list of modules, none of which is listed under
another name than its own. -/
structure Represents (codec : Codec) (old : Option Bytes) (zip : ZipArchive)
    (modules : List Module) : Prop where
  entries : List.Forall₂ (Pending codec old) zip.archive.entries modules
  files : zip.files = modules.map Module.name
  texts : ∀ m ∈ modules, nameText m.name = m.name
  names : ∀ name i, zip.archive.names name = some i → i < zip.archive.entries.length

variable {codec : Codec} {old : Option Bytes} {zip zip' : ZipArchive} {modules : List Module}

/-- No entry is deleted, so all of them survive. -/
theorem Represents.survivors (h : Represents codec old zip modules) :
    zip.archive.survivors = zip.archive.entries := by
  unfold Zip.survivors
  apply List.filter_eq_self.mpr
  intro e he
  obtain ⟨i, hi⟩ := List.mem_iff_getElem?.mp he
  obtain ⟨m, -, hpending⟩ := forall₂_getElem? h.entries hi
  rw [hpending.not_deleted]
  rfl

/-- It is closed without entries just where it has no modules. -/
theorem Represents.survivors_nil_iff (h : Represents codec old zip modules) :
    zip.archive.survivors = [] ↔ modules = [] := by
  rw [h.survivors]
  exact forall₂_nil_iff h.entries

/-! ## Additions -/

/-- The encoding a name ends up with. -/
theorem zipStringNew_of_short {name : Text} (hname : name.length ≤ 0xFFFF) {str : Text}
    {encoding : Encoding} (h : zipStringNew name = some (str, encoding)) : str = name := by
  have htake : name.take (name.length % 2 ^ 16) = name := by
    rw [Nat.mod_eq_of_lt (by omega), List.take_length]
  unfold zipStringNew at h
  dsimp only at h
  rw [htake] at h
  split at h
  · cases h
  · split at h
    · cases h
      rfl
    · cases h
      rfl
    · cases h

/-- The string of a name is cut to 16 bits. -/
theorem length_zipStringNew {name str : Text} {encoding : Encoding}
    (h : zipStringNew name = some (str, encoding)) : str.length ≤ name.length % 2 ^ 16 := by
  unfold zipStringNew at h
  dsimp only at h
  split at h
  · cases h
  · split at h
    · cases h
      exact List.length_take_le _ _
    · cases h
      exact List.length_take_le _ _
    · cases h

/-- Naming a fresh entry at the end: it gets the string made of the name. -/
theorem setName_new {za za' : Zip} {name : Text}
    (hnames : ∀ name i, za.names name = some i → i < za.entries.length)
    (h : ({ za with entries := za.entries ++ [ZipEntry.init] }).setName za.entries.length name =
      some za') :
    ∃ str encoding,
      (if name = [] then some ([], Encoding.ascii) else zipStringNew name) = some (str, encoding) ∧
      za' = { za with
        entries := za.entries ++ [⟨none,
          some ⟨{ Dirent.init with filename := str, nameEncoding := encoding }, false, true⟩,
          none, false⟩]
        names := Function.update za.names str (some za.entries.length) } := by
  unfold Zip.setName at h
  simp only [List.getElem?_concat_length] at h
  split at h
  · cases h
  next str encoding hstr =>
  split at h
  · next i hi =>
      have hlt := hnames _ _ hi
      rw [if_neg (by omega)] at h
      cases h
  · refine ⟨str, encoding, hstr, ?_⟩
    rw [nameText_of_string hstr] at h
    by_cases htaken : (za.names str).isSome = true
    · simp [htaken] at h
    · simpa [htaken, text_init, setName_init] using h.symm

/-- What an addition does that succeeds. -/
theorem fileAdd_new {za za' : Zip} {name : Text} {buffer : Buffer}
    (hnames : ∀ name i, za.names name = some i → i < za.entries.length)
    (h : za.fileAdd name buffer = some za') :
    ∃ str encoding,
      (if name = [] then some ([], Encoding.ascii) else zipStringNew name) = some (str, encoding) ∧
      za' = { za with
        entries := za.entries ++ [⟨none,
          some ⟨{ Dirent.init with filename := str, nameEncoding := encoding }, false, true⟩,
          some buffer, false⟩]
        names := Function.update za.names str (some za.entries.length) } := by
  unfold Zip.fileAdd at h
  split at h
  · cases h
  next za₁ hname =>
  obtain ⟨str, encoding, hstr, rfl⟩ := setName_new hnames hname
  refine ⟨str, encoding, hstr, ?_⟩
  unfold Zip.fileReplace at h
  simpa [ZipEntry.setSource, ZipEntry.unchangeData] using h.symm

/-- The string of a name that fits. -/
theorem eq_name_of_string {name str : Text} {encoding : Encoding}
    (hlength : name.length ≤ 0xFFFF)
    (hstr : (if name = [] then some ([], Encoding.ascii) else zipStringNew name) =
      some (str, encoding)) : str = name := by
  split at hstr
  · next hempty =>
      cases hstr
      exact hempty.symm
  · exact zipStringNew_of_short hlength hstr

/-- A name that fits is kept as it is. -/
theorem fileAdd_eq_some {za za' : Zip} {name : Text} {buffer : Buffer}
    (hnames : ∀ name i, za.names name = some i → i < za.entries.length)
    (hlength : name.length ≤ 0xFFFF) (h : za.fileAdd name buffer = some za') :
    ∃ encoding, za' = { za with
      entries := za.entries ++ [⟨none,
        some ⟨{ Dirent.init with filename := name, nameEncoding := encoding }, false, true⟩,
        some buffer, false⟩]
      names := Function.update za.names name (some za.entries.length) } := by
  obtain ⟨str, encoding, hstr, rfl⟩ := fileAdd_new hnames h
  obtain rfl := eq_name_of_string hlength hstr
  exact ⟨encoding, rfl⟩

/-- A name that is added is not converted when it is listed. -/
theorem nameText_of_fileAdd {za za' : Zip} {name : Text} {buffer : Buffer}
    (hnames : ∀ name i, za.names name = some i → i < za.entries.length)
    (hlength : name.length ≤ 0xFFFF) (h : za.fileAdd name buffer = some za') :
    nameText name = name := by
  obtain ⟨str, encoding, hstr, -⟩ := fileAdd_new hnames h
  obtain rfl := eq_name_of_string hlength hstr
  exact nameText_of_string hstr

/-! ## Updates -/

/-- An entry with new data stands for the new bytes under the old name. -/
theorem Pending.setSource {e : ZipEntry} {m : Module} (h : Pending codec old e m)
    (source : Buffer) : Pending codec old (e.setSource source) ⟨m.name, source.bytes⟩ := by
  cases h with
  | kept hold hstored => exact Pending.replaced hold hstored
  | @replaced _ _ m _ hold hstored =>
      exact @Pending.replaced codec old _ _ m source hold hstored
  | added hname => exact Pending.added hname

theorem fileReplace_eq_some {za za' : Zip} {idx : Nat} {buffer : Buffer}
    (h : za.fileReplace idx buffer = some za') :
    ∃ e, za.entries[idx]? = some e ∧
      za' = { za with entries := za.entries.set idx (e.setSource buffer) } := by
  unfold Zip.fileReplace at h
  split at h
  · cases h
  · next e he => exact ⟨e, he, (Option.some.inj h).symm⟩

/-! ## Calls, one and many -/

/-- What a successful call did. -/
theorem applyOp_eq_some {op : ArchiveOp} (h : applyOp zip op = some zip') :
    (∃ name buffer za', op = .add name buffer ∧ zip.archive.fileAdd name buffer = some za' ∧
        zip' = ⟨za', zip.files ++ [name]⟩) ∨
      ∃ idx buffer za', op = .update idx buffer ∧ zip.archive.fileReplace idx buffer = some za' ∧
        zip' = ⟨za', zip.files⟩ := by
  cases op with
  | add name buffer =>
      simp only [applyOp, ZipArchive.addEntry] at h
      cases hadd : zip.archive.fileAdd name buffer with
      | none =>
          rw [hadd] at h
          cases h
      | some za' =>
          rw [hadd] at h
          exact Or.inl ⟨name, buffer, za', rfl, hadd, (Option.some.inj h).symm⟩
  | update idx buffer =>
      simp only [applyOp, ZipArchive.updateData] at h
      cases hreplace : zip.archive.fileReplace idx buffer with
      | none =>
          rw [hreplace] at h
          cases h
      | some za' =>
          rw [hreplace] at h
          exact Or.inr ⟨idx, buffer, za', rfl, hreplace, (Option.some.inj h).symm⟩

/-- Updates leave the names alone. -/
theorem map_name_modify (modules : List Module) (idx : Nat) (bytes : Bytes) :
    (modules.modify idx fun m => { m with bytes := bytes }).map Module.name =
      modules.map Module.name := by
  apply List.ext_getElem?
  intro i
  rw [List.getElem?_map, List.getElem?_map, List.getElem?_modify]
  cases modules[i]? with
  | none => rfl
  | some m => by_cases hi : idx = i <;> simp [hi]

/-- The names of the modules after a call. -/
theorem ArchiveOp.forall_name_model {P : Text → Prop} (op : ArchiveOp)
    (h : ∀ m ∈ modules, P m.name) (hadd : ∀ name buffer, op = .add name buffer → P name) :
    ∀ m ∈ op.model modules, P m.name := by
  intro m hm
  cases op with
  | add name buffer =>
      rcases List.mem_append.mp hm with hold | hnew
      · exact h m hold
      · rw [List.mem_singleton.mp hnew]
        exact hadd name buffer rfl
  | update idx buffer =>
      have hname := @List.mem_map_of_mem _ _ _ _ Module.name hm
      rw [ArchiveOp.model, map_name_modify] at hname
      obtain ⟨m', hm', hsame⟩ := List.mem_map.mp hname
      rw [← hsame]
      exact h m' hm'

/-- A successful call keeps the archive in step with the list of modules. -/
theorem Represents.applyOp (h : Represents codec old zip modules) {op : ArchiveOp}
    (hfits : op.Fits) (hop : applyOp zip op = some zip') :
    Represents codec old zip' (op.model modules) := by
  obtain ⟨name, buffer, za', rfl, hadd, rfl⟩ | ⟨idx, buffer, za', rfl, hreplace, rfl⟩ :=
    applyOp_eq_some hop
  · -- an addition goes to the end of both
    have htext := nameText_of_fileAdd h.names hfits hadd
    obtain ⟨encoding, rfl⟩ := fileAdd_eq_some h.names hfits hadd
    constructor
    · exact List.rel_append h.entries (.cons (.added hfits) .nil)
    · simp [ArchiveOp.model, h.files]
    · apply @ArchiveOp.forall_name_model _ (fun n => nameText n = n) _ h.texts
      rintro _ _ ⟨⟩
      exact htext
    · intro other i hi
      show i < (zip.archive.entries ++ [_]).length
      change Function.update zip.archive.names name (some zip.archive.entries.length) other =
        some i at hi
      rw [List.length_append, List.length_singleton]
      by_cases hother : other = name
      · subst hother
        rw [Function.update_self] at hi
        cases hi
        omega
      · rw [Function.update_of_ne hother] at hi
        have hlt := h.names other i hi
        omega
  · -- an update replaces the same place of both
    obtain ⟨e, he, rfl⟩ := fileReplace_eq_some hreplace
    constructor
    · apply forall₂_set_modify h.entries
      intro m hm
      obtain ⟨m', hm', hpending⟩ := forall₂_getElem? h.entries he
      rw [hm'] at hm
      cases hm
      exact hpending.setSource buffer
    · rw [ArchiveOp.model, map_name_modify]
      exact h.files
    · apply @ArchiveOp.forall_name_model _ (fun n => nameText n = n) _ h.texts
      rintro _ _ ⟨⟩
    · intro name i hi
      have hlt := h.names name i hi
      simpa using hlt

/-- So do all calls of a session. -/
theorem Represents.applyOps {ops : List ArchiveOp} (h : Represents codec old zip modules)
    (hfits : ∀ op ∈ ops, op.Fits) (hops : applyOps zip ops = some zip') :
    Represents codec old zip' (ops.foldl ArchiveOp.model modules) := by
  induction ops generalizing zip modules with
  | nil =>
      cases hops
      exact h
  | cons op rest ih =>
      rw [Archive.applyOps] at hops
      split at hops
      · cases hops
      · next zip₁ hop =>
          have hfirst := h.applyOp (hfits op List.mem_cons_self) hop
          exact ih hfirst (fun op hmem => hfits op (List.mem_cons_of_mem _ hmem)) hops

/-- One more call after the others. -/
theorem applyOps_append {ops : List ArchiveOp} {op : ArchiveOp} {zip₁ : ZipArchive}
    (hops : applyOps zip ops = some zip₁) (hop : applyOp zip₁ op = some zip') :
    applyOps zip (ops ++ [op]) = some zip' := by
  induction ops generalizing zip with
  | nil =>
      cases hops
      rw [List.nil_append, applyOps, hop]
      rfl
  | cons first rest ih =>
      rw [applyOps] at hops
      rw [List.cons_append, applyOps]
      split at hops
      · cases hops
      · exact ih hops

/-- What a call does to the entries and what it leaves. -/
theorem applyOp_frame {op : ArchiveOp} (h : Represents codec old zip modules)
    (hfits : op.Fits) (hop : applyOp zip op = some zip') :
    zip'.archive.truncate = zip.archive.truncate ∧
      zip'.archive.prefixdata = zip.archive.prefixdata ∧
      (∃ e ∈ zip'.archive.entries, e.source.isSome = true) ∧
      ∀ idx e' o, zip'.archive.entries[idx]? = some e' → e'.orig = some o →
        ∃ e, zip.archive.entries[idx]? = some e ∧ e.orig = some o ∧
          (e'.source = e.source ∨ ∃ buffer, op = .update idx buffer) := by
  obtain ⟨name, buffer, za', rfl, hadd, rfl⟩ | ⟨place, buffer, za', rfl, hreplace, rfl⟩ :=
    applyOp_eq_some hop
  · obtain ⟨encoding, rfl⟩ := fileAdd_eq_some h.names hfits hadd
    refine ⟨rfl, rfl, ⟨_, List.mem_append_right _ List.mem_cons_self, rfl⟩, ?_⟩
    intro idx e' o he' ho
    change (zip.archive.entries ++ [_])[idx]? = some e' at he'
    rw [List.getElem?_append] at he'
    split at he'
    · exact ⟨e', he', ho, Or.inl rfl⟩
    · -- the new entry is not in the file
      have hnew := List.mem_of_getElem? he'
      rw [List.mem_singleton] at hnew
      subst hnew
      cases ho
  · obtain ⟨e, he, rfl⟩ := fileReplace_eq_some hreplace
    have hlt : place < zip.archive.entries.length := (List.getElem?_eq_some_iff.mp he).1
    refine ⟨rfl, rfl, ⟨e.setSource buffer, List.mem_set hlt _, rfl⟩, ?_⟩
    intro idx e' o he' ho
    change (zip.archive.entries.set place _)[idx]? = some e' at he'
    by_cases hidx : place = idx
    · subst hidx
      rw [List.getElem?_set_self hlt] at he'
      cases he'
      exact ⟨e, he, ho, Or.inr ⟨buffer, rfl⟩⟩
    · rw [List.getElem?_set_ne hidx] at he'
      exact ⟨e', he', ho, Or.inl rfl⟩

/-- Only an update gives an entry of the file new data. -/
theorem touched_of_applyOps {ops : List ArchiveOp} (h : Represents codec old zip modules)
    (hfits : ∀ op ∈ ops, op.Fits) (hops : applyOps zip ops = some zip') {idx : Nat}
    {e' : ZipEntry} {o : Dirent} (he' : zip'.archive.entries[idx]? = some e')
    (ho : e'.orig = some o) :
    ∃ e, zip.archive.entries[idx]? = some e ∧ e.orig = some o ∧
      (e'.source = e.source ∨ ∃ buffer, .update idx buffer ∈ ops) := by
  induction ops generalizing zip modules with
  | nil =>
      cases hops
      exact ⟨e', he', ho, Or.inl rfl⟩
  | cons op rest ih =>
      rw [applyOps] at hops
      split at hops
      · cases hops
      next zip₁ hop =>
      have hop_fits := hfits op List.mem_cons_self
      obtain ⟨e₁, he₁, ho₁, hrest⟩ := ih (h.applyOp hop_fits hop)
        (fun op hmem => hfits op (List.mem_cons_of_mem _ hmem)) hops
      obtain ⟨e, he, ho, hfirst⟩ := (applyOp_frame h hop_fits hop).2.2.2 idx e₁ o he₁ ho₁
      refine ⟨e, he, ho, ?_⟩
      rcases hrest with hsame | ⟨buffer, hmem⟩
      · rcases hfirst with hsame' | ⟨buffer, rfl⟩
        · exact Or.inl (hsame.trans hsame')
        · exact Or.inr ⟨buffer, List.mem_cons_self⟩
      · exact Or.inr ⟨buffer, List.mem_cons_of_mem _ hmem⟩

/-- What a call keeps of an entry; an update of it gives it new data. -/
theorem applyOp_keeps {op : ArchiveOp} (h : Represents codec old zip modules)
    (hfits : op.Fits) (hop : applyOp zip op = some zip') {idx : Nat} {e : ZipEntry}
    (he : zip.archive.entries[idx]? = some e) :
    ∃ e', zip'.archive.entries[idx]? = some e' ∧ e'.orig = e.orig ∧
      (e.source.isSome = true ∨ (∃ buffer, op = .update idx buffer) →
        e'.source.isSome = true) := by
  have hlt : idx < zip.archive.entries.length := (List.getElem?_eq_some_iff.mp he).1
  obtain ⟨name, buffer, za', rfl, hadd, rfl⟩ | ⟨place, buffer, za', rfl, hreplace, rfl⟩ :=
    applyOp_eq_some hop
  · obtain ⟨encoding, rfl⟩ := fileAdd_eq_some h.names hfits hadd
    refine ⟨e, ?_, rfl, ?_⟩
    · show (zip.archive.entries ++ [_])[idx]? = some e
      rw [List.getElem?_append_left hlt, he]
    · rintro (hsource | ⟨_, hupdate⟩)
      · exact hsource
      · cases hupdate
  · obtain ⟨e₀, he₀, rfl⟩ := fileReplace_eq_some hreplace
    -- an update at another place leaves this one
    by_cases hidx : place = idx
    · subst hidx
      rw [he] at he₀
      cases he₀
      exact ⟨e.setSource buffer, List.getElem?_set_self hlt, rfl, fun _ => rfl⟩
    · refine ⟨e, ?_, rfl, ?_⟩
      · show (zip.archive.entries.set place _)[idx]? = some e
        rw [List.getElem?_set_ne hidx, he]
      · rintro (hsource | ⟨_, hupdate⟩)
        · exact hsource
        · cases hupdate
          exact absurd rfl hidx

/-- An entry of the file that is updated has new data at the end. -/
theorem updated_of_applyOps {ops : List ArchiveOp} (h : Represents codec old zip modules)
    (hfits : ∀ op ∈ ops, op.Fits) (hops : applyOps zip ops = some zip') {idx : Nat}
    {e : ZipEntry} (he : zip.archive.entries[idx]? = some e) :
    ∃ e', zip'.archive.entries[idx]? = some e' ∧ e'.orig = e.orig ∧
      (e.source.isSome = true ∨ (∃ buffer, .update idx buffer ∈ ops) →
        e'.source.isSome = true) := by
  induction ops generalizing zip modules e with
  | nil =>
      cases hops
      refine ⟨e, he, rfl, ?_⟩
      rintro (hsource | ⟨_, hmem⟩)
      · exact hsource
      · cases hmem
  | cons op rest ih =>
      rw [applyOps] at hops
      split at hops
      · cases hops
      next zip₁ hop =>
      have hop_fits := hfits op List.mem_cons_self
      obtain ⟨e₁, he₁, horig₁, hsource₁⟩ := applyOp_keeps h hop_fits hop he
      obtain ⟨e', he', horig', hsource'⟩ := ih (h.applyOp hop_fits hop)
        (fun op hmem => hfits op (List.mem_cons_of_mem _ hmem)) hops he₁
      refine ⟨e', he', horig'.trans horig₁, ?_⟩
      rintro (hsource | ⟨buffer, hmem⟩)
      · exact hsource' (Or.inl (hsource₁ (Or.inl hsource)))
      · rcases List.mem_cons.mp hmem with hfirst | hrest
        · exact hsource' (Or.inl (hsource₁ (Or.inr ⟨buffer, hfirst.symm⟩)))
        · exact hsource' (Or.inr ⟨buffer, hrest⟩)

/-- The flags and the prefix data stay, and any call is a change. -/
theorem applyOps_frame {ops : List ArchiveOp} (h : Represents codec old zip modules)
    (hfits : ∀ op ∈ ops, op.Fits) (hops : applyOps zip ops = some zip') :
    zip'.archive.truncate = zip.archive.truncate ∧
      zip'.archive.prefixdata = zip.archive.prefixdata ∧
      (ops ≠ [] → zip'.archive.changed = true) := by
  induction ops generalizing zip modules with
  | nil =>
      cases hops
      exact ⟨rfl, rfl, fun hne => absurd rfl hne⟩
  | cons op rest ih =>
      rw [applyOps] at hops
      split at hops
      · cases hops
      next zip₁ hop =>
      have hop_fits := hfits op List.mem_cons_self
      obtain ⟨htruncate, hfront, ⟨e, he, hsource⟩, -⟩ := applyOp_frame h hop_fits hop
      obtain ⟨htruncate', hfront', hchanged⟩ := ih (h.applyOp hop_fits hop)
        (fun op hmem => hfits op (List.mem_cons_of_mem _ hmem)) hops
      refine ⟨htruncate'.trans htruncate, hfront'.trans hfront, fun _ => ?_⟩
      cases rest with
      | nil =>
          cases hops
          apply List.any_eq_true.mpr
          exact ⟨e, he, by simp [ZipEntry.hasChanges, hsource]⟩
      | cons op' rest => exact hchanged (List.cons_ne_nil _ _)

/-! ## Opening -/

/-- An archive without entries. -/
def ZipArchive.fresh (truncate : Bool) (alleyPath : Text) : ZipArchive :=
  ⟨⟨truncate, [], fun _ => none, some (shebang alleyPath)⟩, []⟩

/-- Opening to overwrite, or opening what is not there. -/
theorem openAllexe_fresh (parse : Bytes → Option (List Dirent)) (alleyPath : Text)
    {file : Option Bytes} {overwrite : Bool}
    (h : overwrite = true ∨ file = none ∨ file = some []) :
    openAllexe parse alleyPath file overwrite = some (.fresh overwrite alleyPath) := by
  have hzip : zipOpen parse file overwrite = some (.allocateNew overwrite) := by
    unfold zipOpen
    rcases h with rfl | rfl | rfl
    · cases file <;> rfl
    · rfl
    · cases overwrite <;> rfl
  unfold openAllexe ZipArchive.openZip
  rw [hzip]
  rfl

theorem fresh_represents (truncate : Bool) (alleyPath : Text) :
    Represents codec old (.fresh truncate alleyPath) [] where
  entries := .nil
  files := rfl
  texts := fun _ h => absurd h List.not_mem_nil
  names := fun _ _ h => by cases h

/-- A printable name that is free is taken. -/
theorem addEntry_of_free {name : Text} (hplain : name.all isPlainByte = true) (hne : name ≠ [])
    (hshort : name.length ≤ 0xFFFF) (hfree : zip.archive.names name = none) (buffer : Buffer) :
    ∃ zip', zip.addEntry buffer name = (true, zip') ∧
      zip'.archive.names =
        Function.update zip.archive.names name (some zip.archive.entries.length) := by
  have htake : name.take (name.length % 2 ^ 16) = name := by
    rw [Nat.mod_eq_of_lt (by omega), List.take_length]
  have hname : zipStringNew name = some (name, .ascii) := by
    unfold zipStringNew
    dsimp only
    rw [htake, if_neg hne, guessEncoding_eq_ascii hplain]
  simp [ZipArchive.addEntry, Zip.fileAdd, Zip.setName, Zip.fileReplace, hname, hne, hfree,
    nameText_of_zipStringNew hname, text_init]

/-- An archive without entries takes the main module. -/
theorem addEntry_main_fresh (truncate : Bool) (alleyPath : Text) (buffer : Buffer) :
    ∃ zip, (ZipArchive.fresh truncate alleyPath).addEntry buffer allexeMain = (true, zip) := by
  obtain ⟨zip, hadd, -⟩ := @addEntry_of_free (.fresh truncate alleyPath) allexeMain (by decide)
    (by decide) (by decide) rfl buffer
  exact ⟨zip, hadd⟩

/-- The name table points into the directory. -/
theorem nameTable_lt {idx : Nat} {texts : List Text} {names : Text → Option Nat}
    {name : Text} {i : Nat} (h : nameTable idx texts names name = some i)
    (hnames : names name = some i → i < idx) : i < idx + texts.length := by
  induction texts generalizing idx names with
  | nil => exact hnames h
  | cons text rest ih =>
      rw [nameTable] at h
      have hlt := ih h fun hfound => by
        split at hfound
        · have hold := hnames hfound
          omega
        · by_cases hname : name = text
          · subst hname
            rw [Function.update_self] at hfound
            cases hfound
            omega
          · rw [Function.update_of_ne hname] at hfound
            have hold := hnames hfound
            omega
      rw [List.length_cons]
      omega

/-- The archive a directory is opened as. -/
def ZipArchive.ofDirectory (dirents : List Dirent) (alleyPath : Text) : ZipArchive :=
  ⟨⟨false, originalEntries dirents, nameTable 0 (dirents.map Dirent.text) fun _ => none,
      some (shebang alleyPath)⟩,
    dirents.map Dirent.text⟩

/-- A directory is listed with the texts of its names. -/
theorem map_text_originalEntries (dirents : List Dirent) :
    (originalEntries dirents).map ZipEntry.text = dirents.map Dirent.text := by
  simp [originalEntries, ZipEntry.text, ZipEntry.name, Dirent.text]

/-- The main module is listed under its name. -/
theorem text_eq_allexeMain_iff (de : Dirent) :
    de.text = allexeMain ↔ de.filename = allexeMain :=
  nameText_eq_iff (by decide)

theorem openAllexe_of_parse {parse : Bytes → Option (List Dirent)} (alleyPath : Text)
    {bytes : Bytes} {dirents : List Dirent} (hbytes : bytes ≠ [])
    (hparse : parse bytes = some dirents)
    (hmain : ∀ de ∈ dirents.head?, de.filename = allexeMain) :
    openAllexe parse alleyPath (some bytes) false = some (.ofDirectory dirents alleyPath) := by
  unfold openAllexe ZipArchive.openZip zipOpen
  simp only [Bool.false_eq_true, if_false, if_neg hbytes, hparse, Option.map_some,
    map_text_originalEntries]
  cases dirents with
  | nil => rfl
  | cons de rest =>
      have hfirst : de.text = allexeMain := (text_eq_allexeMain_iff de).mpr (hmain de rfl)
      simp only [List.map_cons, if_pos hfirst]
      rfl

/-- An opened file that stores the modules represents them. -/
theorem ofDirectory_represents {bytes : Bytes} {dirents : List Dirent} (alleyPath : Text)
    (hstored : List.Forall₂ (Stored codec bytes) dirents modules)
    (htexts : ∀ m ∈ modules, nameText m.name = m.name) :
    Represents codec (some bytes) (.ofDirectory dirents alleyPath) modules where
  entries := by
    apply List.forall₂_map_left_iff.mpr
    exact hstored.imp fun _ _ h => Pending.kept rfl h
  files := by
    show dirents.map Dirent.text = modules.map Module.name
    induction hstored with
    | nil => rfl
    | cons h _ ih =>
        rw [List.forall_mem_cons] at htexts
        rw [List.map_cons, List.map_cons, Dirent.text, h.filename, htexts.1, ih htexts.2]
  texts := htexts
  names := by
    intro name i hi
    have hlt := nameTable_lt hi fun h => by cases h
    simpa [ZipArchive.ofDirectory, originalEntries] using hlt

/-- What `Allexe::open` accepts: nothing yet, or a directory that begins with the
main module. -/
theorem openAllexe_cases {parse : Bytes → Option (List Dirent)} {alleyPath : Text}
    {file : Option Bytes} {overwrite : Bool}
    (h : openAllexe parse alleyPath file overwrite = some zip) :
    zip = .fresh overwrite alleyPath ∨
      overwrite = false ∧ ∃ dirents, zip = .ofDirectory dirents alleyPath ∧
        ∀ de ∈ dirents.head?, de.filename = allexeMain := by
  obtain ⟨za, hza, rfl, hmain⟩ := openAllexe_eq_some h
  rcases zipOpen_cases hza with rfl | ⟨rfl, bytes, dirents, -, -, -, rfl⟩
  · exact Or.inl rfl
  · refine Or.inr ⟨rfl, dirents, ?_, ?_⟩
    · rw [map_text_originalEntries]
      rfl
    · intro de hde
      apply (text_eq_allexeMain_iff de).mp
      apply hmain
      rw [map_text_originalEntries, List.head?_map, hde]
      rfl

/-- The name table keeps the index of the first entry. -/
theorem nameTable_of_some {idx i : Nat} {texts : List Text} {names : Text → Option Nat}
    {name : Text} (h : names name = some i) : nameTable idx texts names name = some i := by
  induction texts generalizing idx names with
  | nil => exact h
  | cons text rest ih =>
      rw [nameTable]
      apply ih
      split
      · exact h
      · next hfree =>
          rw [Function.update_of_ne, h]
          rintro rfl
          rw [h] at hfree
          exact hfree rfl

/-- A main module can only be added where there are no modules. -/
theorem entries_nil_of_add_main {parse : Bytes → Option (List Dirent)} {alleyPath : Text}
    {file : Option Bytes} {overwrite : Bool} {buffer : Buffer}
    (hopen : openAllexe parse alleyPath file overwrite = some zip)
    (hadd : applyOp zip (.add allexeMain buffer) = some zip') :
    Represents codec old zip [] := by
  rcases openAllexe_cases hopen with rfl | ⟨-, dirents, rfl, hmain⟩
  · exact fresh_represents _ _
  · cases dirents with
    | nil => exact ⟨.nil, rfl, fun _ h => absurd h List.not_mem_nil, fun _ _ h => by cases h⟩
    | cons de rest =>
        -- the name of the main module is taken by the first entry
        have hfirst : de.text = allexeMain := (text_eq_allexeMain_iff de).mpr (hmain de rfl)
        have htaken : nameTable 0 ((de :: rest).map Dirent.text) (fun _ => none) allexeMain =
            some 0 := by
          rw [List.map_cons, nameTable, if_neg (by simp)]
          apply nameTable_of_some
          rw [hfirst, Function.update_self]
        obtain ⟨_, _, za', hop, hfile, -⟩ | ⟨_, _, _, hop, -⟩ := applyOp_eq_some hadd
        · cases hop
          unfold Zip.fileAdd at hfile
          have hrefused : ({ (ZipArchive.ofDirectory (de :: rest) alleyPath).archive with
              entries := (ZipArchive.ofDirectory (de :: rest) alleyPath).archive.entries ++
                [ZipEntry.init] }).setName
              (ZipArchive.ofDirectory (de :: rest) alleyPath).archive.entries.length allexeMain =
                none := by
            unfold Zip.setName
            simp only [List.getElem?_concat_length]
            split
            · rfl
            · have htaken' : (ZipArchive.ofDirectory (de :: rest) alleyPath).archive.names
                  allexeMain = some 0 := htaken
              simp only [htaken']
              rw [if_neg]
              simp [ZipArchive.ofDirectory, originalEntries]
          rw [hrefused] at hfile
          cases hfile
        · cases hop

end Archive
end AllvmTools
