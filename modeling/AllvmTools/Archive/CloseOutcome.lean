import AllvmTools.Library.ListsInStep
import AllvmTools.Archive.CloseFailure

/-!
# What a close leaves

The close of an archive all of whose entries are new, in any surroundings: how
many operations its draft takes, and what the file holds afterwards, depending
on which operations fail.

* `draft_takes` — the draft of the modules takes `draftOps` operations.
* `zipClose_outcome` — the file is the old one, what a failing flush left, or an
  archive of exactly the modules.
-/

namespace AllvmTools
namespace Archive

open Library Library.Files Library.Commands Library.Commands.Command

/-- The file is an archive of exactly these modules. -/
def Archived (codec : Codec) (modules : List Module) (file : Option Bytes) : Prop :=
  ∃ prefixdata blocks, file = some (archiveBytes prefixdata blocks) ∧
    Consecutive prefixdata.length blocks ∧ List.Forall₂ (Block.Holds codec) blocks modules

/-! ## Counting the operations of a draft -/

/-- The buffers that so many bytes fill. -/
def chunks (len : Nat) : Nat :=
  (len + (bufSize - 1)) / bufSize

/-- What is written for the bytes of a new entry. -/
def Codec.encoded (codec : Codec) (bytes : Bytes) : Bytes :=
  match codec.encode Dirent.init.compMethod bytes with
  | none => []
  | some (_, data) => data

/-- The operations that one new entry takes. -/
def entryOps (codec : Codec) (m : Module) : Nat :=
  12 + chunks (codec.encoded m.bytes).length

/-- The operations before the commit: beginning, the prefix, the entries, and the
directory with its records. -/
def draftOps (codec : Codec) (modules : List Module) : Nat :=
  2 + (modules.map (entryOps codec)).sum + (3 + 3 * modules.length)

/-- A single operation takes one. -/
theorem op_takes {α : Type} {act : World → Option α × World}
    (hops : ∀ w, (act w).2.ops = w.ops) : Takes closeClock .calm (op act) 1 := by
  intro w a t hrun
  have hcount : (act { w with ops := w.ops + 1 }).2.ops = w.ops + 1 := hops _
  rw [op_calm] at hrun
  rwa [hrun] at hcount

theorem write_takes (bytes : Bytes) : Takes closeClock .calm (write bytes) 1 :=
  op_takes fun _ => rfl

theorem tellWrite_takes : Takes closeClock .calm tellWrite 1 :=
  op_takes fun _ => rfl

theorem seekWrite_takes (offset : Nat) : Takes closeClock .calm (seekWrite offset) 1 :=
  op_takes fun _ => rfl

theorem direntWriteLocal_takes (de : Dirent) (force : Bool) :
    Takes closeClock .calm (direntWriteLocal de force) 3 := by
  show Takes closeClock .calm (direntWriteLocal de force) (1 + (1 + (1 + 0)))
  apply (write_takes _).bind
  intro _
  apply (write_takes _).bind
  intro _
  apply (write_takes _).bind
  exact fun _ => Takes.pure _

theorem direntWriteLocal_returnsOnly (de : Dirent) (force : Bool) :
    ReturnsOnly .calm (direntWriteLocal de force)
      (de.withWriteFlags, de.localIsZip64 force) := by
  intro w r t hrun
  obtain ⟨_, _, _, hrun⟩ := bind_eq_some_iff.mp hrun
  obtain ⟨_, _, _, hrun⟩ := bind_eq_some_iff.mp hrun
  obtain ⟨_, _, _, hrun⟩ := bind_eq_some_iff.mp hrun
  exact (Option.some.inj (Prod.mk.inj hrun).1).symm

theorem copySource_takes (data : Bytes) :
    Takes closeClock .calm (copySource data) (chunks data.length) := by
  induction data using copySource.induct with
  | case1 =>
      rw [copySource, if_pos rfl]
      exact Takes.pure _
  | case2 data hdata ih =>
      have hpos : 0 < data.length := List.length_pos_iff.mpr hdata
      have hchunks : chunks data.length = 1 + chunks (data.drop bufSize).length := by
        simp only [chunks, List.length_drop, bufSize]
        omega
      rw [copySource, if_neg hdata, hchunks]
      exact (write_takes _).bind fun _ => ih

theorem writeData_takes {codec : Codec} {source : Buffer} {de : Dirent} {method : Method}
    {data : Bytes} (hplain : de.encrypted = false)
    (hencode : codec.encode de.compMethod source.bytes = some (method, data)) :
    Takes closeClock .calm (writeData codec source de) (10 + chunks data.length) := by
  have hplain' : (de.preliminary source.bytes.length).withWriteFlags.encrypted = false := hplain
  have hencode' : codec.encode (de.preliminary source.bytes.length).withWriteFlags.compMethod
      source.bytes = some (method, data) := hencode
  -- one summand for each step, in the order of the steps
  have hcount : 10 + chunks data.length = 1 + (3 + (1 + (chunks data.length +
      (1 + (1 + (3 + 0)))))) := by
    omega
  rw [hcount]
  apply tellWrite_takes.bind
  intro offstart
  apply (direntWriteLocal_takes _ _).bind_value (direntWriteLocal_returnsOnly _ _)
  dsimp only
  rw [hplain', hencode']
  simp only [Bool.false_eq_true, if_false]
  apply tellWrite_takes.bind
  intro offdata
  apply (copySource_takes data).bind
  intro _
  apply tellWrite_takes.bind
  intro offend
  apply (seekWrite_takes _).bind
  intro _
  apply (direntWriteLocal_takes _ _).bind
  exact fun _ => Takes.pure _

/-- A failing command takes any number of operations. -/
theorem fail_takes {α : Type} (n : Nat) :
    Takes closeClock .calm (fail : CloseM α) n := by
  intro w a t hrun
  cases hrun

theorem addData_takes {codec : Codec} {source : Buffer} {de : Dirent} {method : Method}
    {data : Bytes} (hplain : de.encrypted = false)
    (hencode : codec.encode de.compMethod source.bytes = some (method, data)) :
    Takes closeClock .calm (addData codec source de) (10 + chunks data.length + 1) := by
  apply (writeData_takes hplain hencode).bind
  rintro ⟨de', isZip64, isZip64', offend⟩
  dsimp only
  split
  · exact fail_takes 1
  · exact (seekWrite_takes _).bind fun _ => Takes.pure _

section Entries

variable {codec : Codec} {old : Option Bytes} {modules : List Module}

theorem writeEntry_takes {e : ZipEntry} {m : Module} (he : Pending codec old e m)
    (hnew : e.orig = none) :
    Takes closeClock .calm (writeEntry codec e) (entryOps codec m) := by
  cases he with
  | kept => cases hnew
  | replaced => cases hnew
  | @added name encoding source hname =>
      obtain ⟨method, data, hencode, -⟩ :=
        encode_default codec (show Dirent.init.compMethod.isDefault = true from rfl) source.bytes
      have hdata : codec.encoded source.bytes = data := by
        unfold Codec.encoded
        rw [hencode]
      have hcount : entryOps codec ⟨name, source.bytes⟩ =
          0 + (1 + (10 + chunks data.length + 1)) := by
        unfold entryOps
        rw [hdata]
        omega
      rw [hcount]
      apply Takes.bind (show Takes closeClock .calm (readLocalEf none) 0 from Takes.pure _)
      intro _
      apply tellWrite_takes.bind
      exact fun off => addData_takes rfl hencode

theorem writeEntries_takes {entries : List ZipEntry}
    (hentries : List.Forall₂ (Pending codec old) entries modules)
    (hnew : ∀ e ∈ entries, e.orig = none) :
    Takes closeClock .calm (writeEntries codec entries)
      (modules.map (entryOps codec)).sum := by
  induction hentries with
  | nil => exact Takes.pure _
  | cons he _ ih =>
      rw [List.map_cons, List.sum_cons]
      apply (writeEntry_takes he (hnew _ List.mem_cons_self)).bind
      intro de
      exact (ih fun e he => hnew e (List.mem_cons_of_mem _ he)).bind fun _ => Takes.pure _

theorem writeRecords_takes (des : List Dirent) :
    Takes closeClock .calm (writeRecords des) (3 * des.length) := by
  induction des with
  | nil => exact Takes.pure _
  | cons de rest ih =>
      rw [List.length_cons, Nat.mul_succ, Nat.add_comm]
      have hrecord : Takes closeClock .calm (direntWriteCentral de) (1 + (1 + (1 + 0))) := by
        apply (write_takes _).bind
        intro _
        apply (write_takes _).bind
        intro _
        apply (write_takes _).bind
        exact fun _ => Takes.pure _
      apply hrecord.bind
      intro zip64
      exact ih.bind fun _ => Takes.pure _

theorem writeCdir_takes (des : List Dirent) :
    Takes closeClock .calm (writeCdir des) (3 + 3 * des.length) := by
  have hcount : 3 + 3 * des.length = 1 + (3 * des.length + (1 + 1)) := by omega
  rw [hcount]
  apply tellWrite_takes.bind
  intro offset
  apply (writeRecords_takes des).bind
  intro zip64
  apply tellWrite_takes.bind
  exact fun off => write_takes _

/-! ## The outcome -/

variable {za : Zip}

/-- Where it succeeds, the draft of new entries takes `draftOps` operations. -/
theorem draft_takes (hentries : List.Forall₂ (Pending codec old) za.survivors modules)
    (hnew : ∀ e ∈ za.survivors, e.orig = none) {prefixdata : Text}
    (hfront : za.prefixdata = some prefixdata) {w u : World} {des : List Dirent}
    (hdraft : draft codec za .calm w = (some des, u)) (hdes : des.length = modules.length) :
    u.ops = w.ops + draftOps codec modules := by
  obtain ⟨_, w₁, hbegin, hrun⟩ := bind_eq_some_iff.mp hdraft
  obtain ⟨_, w₂, hwrite, hrun⟩ := bind_eq_some_iff.mp hrun
  obtain ⟨des', w₃, hwritten, hrun⟩ := bind_eq_some_iff.mp hrun
  obtain ⟨_, w₄, hcdir, hrun⟩ := bind_eq_some_iff.mp hrun
  cases hrun
  rw [hfront] at hwrite
  have hops₁ : w₁.ops = w.ops + 1 := op_takes (fun _ => rfl) w _ _ hbegin
  have hops₂ : w₂.ops = w₁.ops + 1 := write_takes prefixdata w₁ _ _ hwrite
  have hops₃ : w₃.ops = w₂.ops + _ := writeEntries_takes hentries hnew w₂ _ _ hwritten
  have hops₄ : u.ops = w₃.ops + _ := writeCdir_takes des w₃ _ _ hcdir
  rw [hops₄, hops₃, hops₂, hops₁, hdes]
  unfold draftOps
  omega

/-- A fresh entry has no header to grow. -/
theorem not_grows_of_new {e : ZipEntry} (hnew : e.orig = none) : ¬ e.Grows := by
  rintro ⟨o, ho, -⟩
  rw [hnew] at ho
  cases ho

/-- What a close leaves of new entries: the old file where an operation of the
draft or the rename fails, what was flushed where only the `fclose` fails, and
otherwise an archive of exactly the modules. -/
theorem zipClose_outcome (hcodec : codec.Lawful)
    (hentries : List.Forall₂ (Pending codec old) za.survivors modules)
    (hnew : ∀ e ∈ za.survivors, e.orig = none) (hne : modules ≠ []) {prefixdata : Text}
    (hfront : za.prefixdata = some prefixdata) (hchanged : za.changed = true) :
    ∃ archive : Bytes, Archived codec modules (some archive) ∧
      ∀ env, (zipClose codec za env (.start old)).2.file =
        if (∃ i < draftOps codec modules, env.fails i = true) ∨
            env.fails (draftOps codec modules + 1) = true then
          old
        else if env.fails (draftOps codec modules) = true then
          some env.left
        else
          some archive := by
  have hsurvivors : za.survivors ≠ [] := mt (forall₂_nil_iff hentries).mp hne
  obtain ⟨_, u, hdraft, blocks, rfl, hoffsets, hholds, hu⟩ :=
    draft_achieves hcodec hentries (Or.inr hnew) (fun e he => not_grows_of_new (hnew e he))
      (.start old) rfl
  have hops : u.ops = draftOps codec modules := by
    have htakes := draft_takes hentries hnew hfront hdraft
      (by rw [List.length_map, hholds.length_eq])
    rw [htakes]
    exact Nat.zero_add _
  refine ⟨archiveBytes (za.prefixdata.getD []) blocks, ⟨_, blocks, rfl, hoffsets, hholds⟩, ?_⟩
  intro env
  have hnotices := (drafts_draft codec za).notices
  -- the draft fails where one of its operations does
  have hfailing : closeClock.FailsBetween env (.start old)
      (draft codec za .calm (.start old)).2 ↔
        ∃ i < draftOps codec modules, env.fails i = true := by
    rw [hdraft, ← hops]
    constructor
    · rintro ⟨i, -, hlt, hfails⟩
      exact ⟨i, hlt, hfails⟩
    · rintro ⟨i, hlt, hfails⟩
      exact ⟨i, Nat.zero_le _, hlt, hfails⟩
  by_cases hfails : ∃ i < draftOps codec modules, env.fails i = true
  · rw [if_pos (Or.inl hfails)]
    have herror := hnotices.stops env _ (hfailing.mpr hfails)
    exact (zipClose_of_draft_error hsurvivors hchanged herror).2
  · have hsame := hnotices.same env _ (mt hfailing.mp hfails)
    rw [hdraft] at hsame
    rcases zipClose_eq codec hsurvivors hchanged env (.start old) with
      ⟨_, _, herror, -, -⟩ | ⟨des, v, hdraft', hclose⟩
    · rw [hsame] at herror
      cases herror
    · rw [hsame] at hdraft'
      cases hdraft'
      have hcommit := (afterDraft_file (blocks.map Block.de) env u).2
      rw [hclose, hcommit, hops, hu.file, hu.temp, List.append_nil]
      by_cases hrename : env.fails (draftOps codec modules + 1) = true
      · rw [if_pos hrename, if_pos (Or.inr hrename)]
      · rw [if_neg hrename, if_neg (not_or.mpr ⟨hfails, hrename⟩)]
        rfl

end Entries

end Archive
end AllvmTools
