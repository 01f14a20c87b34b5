import AllvmTools.Archive.CloseSpec

/-!
# Failing operations of a close

Everything before the commit only works on the temporary output: it leaves the
file alone, and it returns an error if one of its operations fails (`Drafts`).
The commit does not: a failing `fclose` goes unnoticed.

* `zipClose_of_draft_error` — an error before the commit leaves the old file.
* `afterDraft_file` — what the commit leaves where any operation may fail.
-/

namespace AllvmTools
namespace Archive

open Library Library.Files Library.Commands Library.Commands.Command

/-- The operations are counted in the world; the surroundings say which fail. -/
def closeClock : Clock Env World :=
  ⟨World.ops, Env.fails⟩

/-- A part of a close that leaves the file alone and notices failing operations. -/
structure Drafts {α : Type} (m : CloseM α) : Prop where
  keeps : ∀ old, Keeps (fun w => w.file = old) m
  notices : Notices closeClock .calm m

namespace Drafts

variable {α β : Type}

theorem pure (a : α) : Drafts (pure a : CloseM α) :=
  ⟨fun _ => Keeps.pure a, Notices.pure a⟩

theorem fail : Drafts (fail : CloseM α) :=
  ⟨fun _ => Keeps.fail, Notices.fail⟩

theorem bind {m : CloseM α} {f : α → CloseM β} (hm : Drafts m) (hf : ∀ a, Drafts (f a)) :
    Drafts (m >>= f) :=
  ⟨fun old => (hm.keeps old).bind fun a => (hf a).keeps old,
    hm.notices.bind fun a => (hf a).notices⟩

/-- A single operation, whose action neither touches the file nor counts. -/
theorem op {act : World → Option α × World} (hfile : ∀ w, (act w).2.file = w.file)
    (hops : ∀ w, (act w).2.ops = w.ops) : Drafts (op act) where
  keeps old := by
    intro env w hw
    unfold Archive.op
    split
    · exact hw
    · rw [hfile]
      exact hw
  notices := by
    have hcount : ∀ w, closeClock.count (Archive.op act .calm w).2 = w.ops + 1 := by
      intro w
      show (act { w with ops := w.ops + 1 }).2.ops = w.ops + 1
      rw [hops]
    constructor
    · intro w
      rw [hcount]
      exact Nat.le_succ _
    · intro env w hcalm
      have hfails : ¬ env.fails w.ops = true := by
        intro hfails
        exact hcalm ⟨w.ops, Nat.le_refl _, by rw [hcount]; exact Nat.lt_succ_self _, hfails⟩
      unfold Archive.op
      rw [if_neg hfails]
      rfl
    · rintro env w ⟨i, hge, hlt, hfails⟩
      rw [hcount] at hlt
      -- the one operation is the one that fails
      have hi : i = w.ops := Nat.le_antisymm (Nat.lt_succ_iff.mp hlt) hge
      subst hi
      unfold Archive.op
      rw [if_pos (show env.fails w.ops = true from hfails)]

end Drafts

/-! ## The operations -/

theorem drafts_beginWrite : Drafts beginWrite :=
  Drafts.op (fun _ => rfl) fun _ => rfl

theorem drafts_write (bytes : Bytes) : Drafts (write bytes) :=
  Drafts.op (fun _ => rfl) fun _ => rfl

theorem drafts_tellWrite : Drafts tellWrite :=
  Drafts.op (fun _ => rfl) fun _ => rfl

theorem drafts_seekWrite (offset : Nat) : Drafts (seekWrite offset) :=
  Drafts.op (fun _ => rfl) fun _ => rfl

theorem drafts_readOld (offset len : Nat) : Drafts (readOld offset len) := by
  apply Drafts.op
  · intro w
    dsimp only
    split <;> rfl
  · intro w
    dsimp only
    split <;> rfl

/-! ## The entries -/

theorem drafts_direntWriteLocal (de : Dirent) (force : Bool) :
    Drafts (direntWriteLocal de force) := by
  apply (drafts_write _).bind
  intro _
  apply (drafts_write _).bind
  intro _
  apply (drafts_write _).bind
  exact fun _ => Drafts.pure _

theorem drafts_copySource (data : Bytes) : Drafts (copySource data) := by
  induction data using copySource.induct with
  | case1 =>
      rw [copySource, if_pos rfl]
      exact Drafts.pure _
  | case2 data hdata ih =>
      rw [copySource, if_neg hdata]
      exact (drafts_write _).bind fun _ => ih

theorem drafts_copyData (offset len : Nat) : Drafts (copyData offset len) := by
  induction offset, len using copyData.induct with
  | case1 offset =>
      rw [copyData, if_pos rfl]
      exact Drafts.pure _
  | case2 offset len hpos ih =>
      rw [copyData, if_neg hpos]
      apply (drafts_readOld _ _).bind
      intro data
      exact (drafts_write _).bind fun _ => ih

theorem drafts_writeData (codec : Codec) (source : Buffer) (de : Dirent) :
    Drafts (writeData codec source de) := by
  apply drafts_tellWrite.bind
  intro offstart
  apply (drafts_direntWriteLocal _ _).bind
  rintro ⟨de, isZip64⟩
  dsimp only
  split
  · exact Drafts.fail
  split
  · exact Drafts.fail
  · apply drafts_tellWrite.bind
    intro offdata
    apply (drafts_copySource _).bind
    intro _
    apply drafts_tellWrite.bind
    intro offend
    apply (drafts_seekWrite _).bind
    intro _
    apply (drafts_direntWriteLocal _ _).bind
    exact fun _ => Drafts.pure _

theorem drafts_addData (codec : Codec) (source : Buffer) (de : Dirent) :
    Drafts (addData codec source de) := by
  apply (drafts_writeData codec source de).bind
  rintro ⟨de, isZip64, isZip64', offend⟩
  dsimp only
  split
  · exact Drafts.fail
  · exact (drafts_seekWrite _).bind fun _ => Drafts.pure _

theorem drafts_readLocalEf (orig : Option Dirent) : Drafts (readLocalEf orig) := by
  cases orig with
  | none => exact Drafts.pure _
  | some orig =>
      apply (drafts_readOld _ _).bind
      intro lengths
      split
      · exact Drafts.pure _
      · exact (drafts_readOld _ _).bind fun _ => Drafts.pure _

theorem drafts_fileGetOffsetM (orig : Dirent) : Drafts (fileGetOffsetM orig) := by
  apply (drafts_readOld _ _).bind
  intro lengths
  dsimp only
  split
  · exact Drafts.fail
  · exact Drafts.pure _

theorem drafts_writeEntry (codec : Codec) (e : ZipEntry) : Drafts (writeEntry codec e) := by
  apply (drafts_readLocalEf _).bind
  intro _
  apply drafts_tellWrite.bind
  intro off
  dsimp only
  split
  · exact drafts_addData _ _ _
  · exact Drafts.fail
  · apply (drafts_direntWriteLocal _ _).bind
    rintro ⟨de, isZip64⟩
    apply (drafts_fileGetOffsetM _).bind
    intro offset
    exact (drafts_copyData _ _).bind fun _ => Drafts.pure _

theorem drafts_writeEntries (codec : Codec) (entries : List ZipEntry) :
    Drafts (writeEntries codec entries) := by
  induction entries with
  | nil => exact Drafts.pure _
  | cons e rest ih =>
      apply (drafts_writeEntry codec e).bind
      intro de
      exact ih.bind fun _ => Drafts.pure _

/-! ## The directory -/

theorem drafts_direntWriteCentral (de : Dirent) : Drafts (direntWriteCentral de) := by
  apply (drafts_write _).bind
  intro _
  apply (drafts_write _).bind
  intro _
  apply (drafts_write _).bind
  exact fun _ => Drafts.pure _

theorem drafts_writeRecords (des : List Dirent) : Drafts (writeRecords des) := by
  induction des with
  | nil => exact Drafts.pure _
  | cons de rest ih =>
      apply (drafts_direntWriteCentral de).bind
      intro zip64
      exact ih.bind fun _ => Drafts.pure _

theorem drafts_writeCdir (des : List Dirent) : Drafts (writeCdir des) := by
  apply drafts_tellWrite.bind
  intro offset
  apply (drafts_writeRecords des).bind
  intro zip64
  apply drafts_tellWrite.bind
  intro off
  exact drafts_write _

/-! ## The whole close -/

theorem drafts_draft (codec : Codec) (za : Zip) : Drafts (draft codec za) := by
  apply drafts_beginWrite.bind
  intro _
  apply Drafts.bind
  · cases za.prefixdata with
    | none => exact Drafts.pure _
    | some bytes => exact drafts_write bytes
  · intro _
    apply (drafts_writeEntries codec za.survivors).bind
    intro des
    exact (drafts_writeCdir des).bind fun _ => Drafts.pure _

/-- How the commit ends the close of a finished draft. -/
def afterDraft (des : List Dirent) (env : Env) (w : World) :
    Option (Option (List Dirent)) × World :=
  match commitWrite env w with
  | (none, w) => (none, rollbackWrite w)
  | (some (), w) => (some (some des), w)

/-- A close with something to write is its draft and the commit. -/
theorem zipClose_eq (codec : Codec) {za : Zip} (hsurvivors : za.survivors ≠ [])
    (hchanged : za.changed = true) (env : Env) (w : World) :
    (∃ u v, draft codec za env w = (none, u) ∧ zipClose codec za env w = (none, v) ∧
        v.file = u.file) ∨
      ∃ des u, draft codec za env w = (some des, u) ∧
        zipClose codec za env w = afterDraft des env u := by
  unfold zipClose
  rw [if_neg hsurvivors, if_neg (by simp [hchanged])]
  unfold draft
  -- the steps of the draft, in their order; each may be the one that fails
  rcases hbegin : beginWrite env w with ⟨_ | _, w₁⟩
  · exact Or.inl ⟨w₁, w₁, bind_of_none hbegin, rfl, rfl⟩
  rw [bind_of_some hbegin]
  dsimp only
  rcases hwrite : (za.prefixdata.elim (pure ()) write : CloseM Unit) env w₁ with ⟨_ | _, w₂⟩
  · exact Or.inl ⟨w₂, w₂, bind_of_none hwrite, rfl, rfl⟩
  rw [bind_of_some hwrite]
  dsimp only
  unfold writeAll
  rcases hentries : writeEntries codec za.survivors env w₂ with ⟨_ | des, w₃⟩
  · rw [bind_of_none hentries, bind_of_none hentries]
    exact Or.inl ⟨w₃, _, rfl, rfl, rfl⟩
  rw [bind_of_some hentries, bind_of_some hentries]
  rcases hcdir : writeCdir des env w₃ with ⟨_ | _, w₄⟩
  · rw [bind_of_none hcdir, bind_of_none hcdir]
    exact Or.inl ⟨w₄, _, rfl, rfl, rfl⟩
  rw [bind_of_some hcdir, bind_of_some hcdir]
  refine Or.inr ⟨des, w₄, rfl, ?_⟩
  unfold afterDraft
  rcases hcommit : commitWrite env w₄ with ⟨_ | _, w₅⟩
  · rw [bind_of_none hcommit]
  · rw [bind_of_some hcommit]
    rfl

/-- An error before the commit leaves the old file. -/
theorem zipClose_of_draft_error {codec : Codec} {za : Zip} (hsurvivors : za.survivors ≠ [])
    (hchanged : za.changed = true) {env : Env} {w : World}
    (herror : (draft codec za env w).1 = none) :
    (zipClose codec za env w).1 = none ∧ (zipClose codec za env w).2.file = w.file := by
  rcases zipClose_eq codec hsurvivors hchanged env w with
    ⟨u, v, hdraft, hclose, hfile⟩ | ⟨des, u, hdraft, -⟩
  · have hkept := (drafts_draft codec za).keeps w.file env w rfl
    rw [hdraft] at hkept
    rw [hclose]
    exact ⟨rfl, hfile.trans hkept⟩
  · rw [hdraft] at herror
    cases herror

/-- What the commit leaves: the old file where the rename failed, what was flushed
where only the `fclose` did, and the draft otherwise. -/
theorem afterDraft_file (des : List Dirent) (env : Env) (w : World) :
    ((afterDraft des env w).1 = none ↔ env.fails (w.ops + 1) = true) ∧
      (afterDraft des env w).2.file =
        if env.fails (w.ops + 1) = true then w.file
        else if env.fails w.ops = true then w.temp.map fun _ => env.left
        else w.temp := by
  unfold afterDraft commitWrite
  rw [bind_of_some (show closeOutput env w = (some (), _) from rfl)]
  unfold renameOutput op
  by_cases hrename : env.fails (w.ops + 1) = true
  · simp [hrename, rollbackWrite]
  · simp [hrename]

/-! ## A close without I/O failures -/

section Calm

variable {codec : Codec} {za : Zip} {modules : List Module} {w : World}

/-- Without entries the file is removed, when it was to be overwritten. -/
theorem zipClose_empty (hsurvivors : za.survivors = []) :
    (zipClose codec za .calm w).2.file =
      if (za.truncate || za.changed) = true then none else w.file := by
  unfold zipClose
  rw [if_pos hsurvivors]
  split
  · unfold sourceRemove
    rw [op_calm]
    dsimp only
    cases hfile : w.file with
    | none =>
        simp only [Option.isSome_none, Bool.false_eq_true, if_false]
    | some bytes => rfl
  · rfl

/-- Without changes nothing happens. -/
theorem zipClose_unchanged (hsurvivors : za.survivors ≠ []) (hchanged : za.changed = false) :
    zipClose codec za .calm w = (some none, w) := by
  unfold zipClose
  rw [if_neg hsurvivors, if_pos hchanged]

/-- The archive is written and renamed into place. -/
theorem zipClose_calm (hcodec : codec.Lawful) (hsurvivors : za.survivors ≠ [])
    (hchanged : za.changed = true)
    (hentries : List.Forall₂ (Pending codec w.file) za.survivors modules)
    (hold : ∀ file ∈ w.file, file.length ≤ int64Max) (hgrows : ∀ e ∈ za.survivors, ¬ e.Grows) :
    ∃ blocks : List Block, (zipClose codec za .calm w).1 = some (some (blocks.map Block.de)) ∧
      (zipClose codec za .calm w).2.file =
        some (archiveBytes (za.prefixdata.getD []) blocks) ∧
      Consecutive (za.prefixdata.getD []).length blocks ∧
      List.Forall₂ (Block.Holds codec) blocks modules := by
  obtain ⟨_, u, hdraft, blocks, rfl, hoffsets, hholds, hu⟩ :=
    draft_achieves hcodec hentries (Or.inl hold) hgrows w rfl
  rcases zipClose_eq codec hsurvivors hchanged .calm w with
    ⟨_, _, herror, -, -⟩ | ⟨des, v, hdraft', hclose⟩
  · rw [hdraft] at herror
    cases herror
  · rw [hdraft] at hdraft'
    cases hdraft'
    rw [hclose]
    refine ⟨blocks, rfl, ?_, hoffsets, hholds⟩
    show u.temp = _
    rw [hu.temp, List.append_nil]

/-- An entry whose header grows makes the close fail, and the old file stays. -/
theorem zipClose_grows (hcodec : codec.Lawful) (hsurvivors : za.survivors ≠ [])
    (hchanged : za.changed = true)
    (hentries : List.Forall₂ (Pending codec w.file) za.survivors modules)
    (hold : ∀ file ∈ w.file, file.length ≤ int64Max) (hgrows : ∃ e ∈ za.survivors, e.Grows) :
    (zipClose codec za .calm w).1 = none ∧ (zipClose codec za .calm w).2.file = w.file :=
  zipClose_of_draft_error hsurvivors hchanged (draft_fails hcodec hentries hold hgrows rfl)

end Calm

end Archive
end AllvmTools
