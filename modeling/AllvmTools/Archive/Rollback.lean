import AllvmTools.Archive.CloseFailure
import AllvmTools.Archive.Session

/-!
# Rolling a close back

`zip_close` has one place at its end where the source is rolled back.  The ALLVM
prefix is written on the way there, but an error of it returns at once; and the
commit renames the temporary output whether or not its `fclose` succeeded.

* `rollback_of_error` — an error after the prefix is rolled back.
* `rollsBack_iff` — every error is, unless the prefix could not be written.
* `notices_iff` — every failing step is an error, unless it is the `fclose` alone.
* `failsCleanly_iff` — both together, for every archive and all surroundings.
* `prefix_leaves_output` — the prefix of a new archive cannot be written.
-/

namespace AllvmTools
namespace Archive

open Library Library.Text Library.Files Library.Commands Library.Commands.Command

/-! ## The property -/

/-- The file is the old one, the temporary output is removed, and no write is in
progress. -/
structure RolledBack (old : Option Bytes) (w : World) : Prop where
  file : w.file = old
  temp : w.temp = none
  writing : w.writing = false

/-- Once writing has begun, every step that fails makes `zip_close` fail, and a
failed `zip_close` is rolled back. -/
structure FailsCleanly (codec : Codec) (za : Zip) (env : Env) (old : Option Bytes) : Prop where
  rollsBack : env.fails 0 = false → (zipClose codec za env (.start old)).1 = none →
    RolledBack old (zipClose codec za env (.start old)).2
  notices : env.fails 0 = false → ∀ i, 0 < i → i < (zipClose codec za env (.start old)).2.ops →
    env.fails i = true → (zipClose codec za env (.start old)).1 = none

/-- The number of the step that commits, if the archive can be written at all. -/
def commitStep (codec : Codec) (za : Zip) (old : Option Bytes) : Option Nat :=
  match draft codec za .calm (.start old) with
  | (none, _) => none
  | (some _, w) => some w.ops

/-- Neither the prefix nor, of all steps, just the `fclose` of the commit fails. -/
structure CleanFailure (codec : Codec) (za : Zip) (env : Env) (old : Option Bytes) : Prop where
  prefixdata : env.fails 0 = false → za.prefixdata.isSome = true → env.fails 1 = false
  flush : env.fails 0 = false → ∀ n, commitStep codec za old = some n →
    (∀ i < n, env.fails i = false) → env.fails n = true → env.fails (n + 1) = true

/-! ## Errors -/

section Errors

variable {codec : Codec} {za : Zip} {env : Env} {old : Option Bytes}

/-- The writes, the directory and the commit leave the file alone until the rename. -/
theorem writeAll_file_of_error {survivors : List ZipEntry} {w u : World}
    (h : writeAll codec survivors env w = (none, u)) : u.file = w.file := by
  unfold writeAll at h
  have hentries := (drafts_writeEntries codec survivors).keeps w.file env w rfl
  rcases hrun : writeEntries codec survivors env w with ⟨_ | des, w₁⟩
  · rw [bind_of_none hrun] at h
    cases h
    rwa [hrun] at hentries
  rw [bind_of_some hrun] at h
  rw [hrun] at hentries
  have hcdir := (drafts_writeCdir des).keeps w.file env w₁ hentries
  rcases hrun' : writeCdir des env w₁ with ⟨_ | _, w₂⟩
  · rw [bind_of_none hrun'] at h
    cases h
    rwa [hrun'] at hcdir
  rw [bind_of_some hrun'] at h
  rw [hrun'] at hcdir
  rcases hcommit : commitWrite env w₂ with ⟨_ | _, w₃⟩
  · -- only the rename fails, and it changes nothing then
    rw [bind_of_none hcommit] at h
    cases h
    unfold commitWrite at hcommit
    rw [bind_of_some (show closeOutput env w₂ = (some (), _) from rfl)] at hcommit
    unfold renameOutput op at hcommit
    by_cases hrename : env.fails (w₂.ops + 1) = true
    · rw [if_pos hrename] at hcommit
      rw [← (Prod.mk.inj hcommit).2]
      exact hcdir
    · rw [if_neg hrename] at hcommit
      cases (Prod.mk.inj hcommit).1
  · rw [bind_of_some hcommit] at h
    cases h

/-- The world in which writing has begun. -/
def World.begun (old : Option Bytes) : World :=
  ⟨old, some [], 0, true, 1⟩

/-- A close with something to write, once it has begun: the prefix, and the rest
with its rollback. -/
theorem zipClose_begun (hsurvivors : za.survivors ≠ []) (hchanged : za.changed = true)
    (hbegin : env.fails 0 = false) :
    zipClose codec za env (.start old) =
      match (za.prefixdata.elim (pure ()) write : CloseM Unit) env (.begun old) with
      | (none, w) => (none, w)
      | (some (), w) =>
          match writeAll codec za.survivors env w with
          | (none, w) => (none, rollbackWrite w)
          | (some des, w) => (some (some des), w) := by
  have hrun : beginWrite env (.start old) = (some (), .begun old) := by
    unfold beginWrite op
    rw [if_neg (show ¬ env.fails (World.start old).ops = true by
      rw [Bool.not_eq_true]
      exact hbegin)]
    rfl
  unfold zipClose
  rewrite [if_neg hsurvivors, if_neg (by simp [hchanged]), hrun]
  rfl

/-- The prefix, where it is written or there is none. -/
theorem prefix_written (hwritten : za.prefixdata.isSome = true → env.fails 1 = false) :
    ∃ w, (za.prefixdata.elim (pure ()) write : CloseM Unit) env (.begun old) = (some (), w) ∧
      w.file = old := by
  cases hfront : za.prefixdata with
  | none => exact ⟨.begun old, rfl, rfl⟩
  | some bytes =>
      have hcalm : ¬ env.fails (World.begun old).ops = true := by
        rw [Bool.not_eq_true]
        exact hwritten (by rw [hfront]; rfl)
      refine ⟨⟨old, some (writeAt [] 0 bytes), 0 + bytes.length, true, 2⟩, ?_, rfl⟩
      show write bytes env (.begun old) = _
      unfold write op
      rw [if_neg hcalm]
      rfl

/-- An error behind the prefix is rolled back. -/
theorem rollback_of_error (hsurvivors : za.survivors ≠ []) (hchanged : za.changed = true)
    (hbegin : env.fails 0 = false) (hwritten : za.prefixdata.isSome = true → env.fails 1 = false)
    (herror : (zipClose codec za env (.start old)).1 = none) :
    RolledBack old (zipClose codec za env (.start old)).2 := by
  obtain ⟨w, hfront, hfile⟩ := @prefix_written za env old hwritten
  rw [zipClose_begun hsurvivors hchanged hbegin, hfront] at herror ⊢
  dsimp only at herror ⊢
  rcases hrun : writeAll codec za.survivors env w with ⟨_ | des, u⟩
  · exact ⟨(writeAll_file_of_error hrun).trans hfile, rfl, rfl⟩
  · rw [hrun] at herror
    cases herror

/-- The return behind the prefix leaves the output, and the write in progress. -/
theorem prefix_not_rolledBack (hsurvivors : za.survivors ≠ []) (hchanged : za.changed = true)
    (hbegin : env.fails 0 = false) (hfront : za.prefixdata.isSome = true)
    (hfails : env.fails 1 = true) :
    (zipClose codec za env (.start old)).1 = none ∧
      (zipClose codec za env (.start old)).2 = { World.begun old with ops := 2 } := by
  obtain ⟨bytes, hbytes⟩ := Option.isSome_iff_exists.mp hfront
  have hrun : (za.prefixdata.elim (pure ()) write : CloseM Unit) env (.begun old) =
      (none, { World.begun old with ops := 2 }) := by
    rw [hbytes]
    show write bytes env (.begun old) = _
    unfold write op
    rw [if_pos (show env.fails (World.begun old).ops = true from hfails)]
    rfl
  rw [zipClose_begun hsurvivors hchanged hbegin, hrun]
  exact ⟨rfl, rfl⟩

/-- A failed close is rolled back, unless the prefix could not be written. -/
theorem rollsBack_iff (hsurvivors : za.survivors ≠ []) (hchanged : za.changed = true)
    (hbegin : env.fails 0 = false) :
    ((zipClose codec za env (.start old)).1 = none →
      RolledBack old (zipClose codec za env (.start old)).2) ↔
        (za.prefixdata.isSome = true → env.fails 1 = false) := by
  constructor
  · intro hrolled hfront
    rw [← Bool.not_eq_true]
    intro hfails
    obtain ⟨herror, hworld⟩ :=
      @prefix_not_rolledBack codec _ _ old hsurvivors hchanged hbegin hfront hfails
    have htemp := (hrolled herror).temp
    rw [hworld] at htemp
    cases htemp
  · exact fun hwritten herror => rollback_of_error hsurvivors hchanged hbegin hwritten herror

/-! ## Failing steps -/

/-- The commit takes two steps, the `fclose` and the rename. -/
theorem ops_afterDraft (des : List Dirent) (env : Env) (w : World) :
    (afterDraft des env w).2.ops = w.ops + 2 := by
  unfold afterDraft commitWrite
  rw [bind_of_some (show closeOutput env w = (some (), _) from rfl)]
  unfold renameOutput op
  by_cases hrename : env.fails (w.ops + 1) = true
  · simp [hrename, rollbackWrite]
  · simp [hrename]

/-- Every failing step makes the close fail, unless it is the `fclose` alone. -/
theorem notices_iff (hsurvivors : za.survivors ≠ []) (hchanged : za.changed = true)
    (hbegin : env.fails 0 = false) :
    (∀ i, 0 < i → i < (zipClose codec za env (.start old)).2.ops → env.fails i = true →
      (zipClose codec za env (.start old)).1 = none) ↔
        ∀ n, commitStep codec za old = some n → (∀ i < n, env.fails i = false) →
          env.fails n = true → env.fails (n + 1) = true := by
  have hnotices := (drafts_draft codec za).notices
  have hcounts := hnotices.counts (.start old)
  have hsame := hnotices.same env (.start old)
  have hstops := hnotices.stops env (.start old)
  unfold commitStep
  rcases hdraft : draft codec za .calm (.start old) with ⟨result, u⟩
  rw [hdraft] at hcounts hsame hstops
  by_cases hfailing : closeClock.FailsBetween env (.start old) u
  · -- a step of the draft fails, and the close with it
    have herror := (zipClose_of_draft_error hsurvivors hchanged (hstops hfailing)).1
    refine iff_of_true (fun _ _ _ _ => herror) ?_
    intro n hn hcalm
    obtain ⟨i, -, hlt, hfails⟩ := hfailing
    cases result with
    | none => cases hn
    | some des =>
        cases hn
        have hcalm_i : env.fails i = false := hcalm i hlt
        rw [show env.fails i = true from hfails] at hcalm_i
        cases hcalm_i
  · have hcalm : ∀ i < u.ops, env.fails i = false := by
      intro i hi
      rw [← Bool.not_eq_true]
      exact fun hfails => hfailing ⟨i, Nat.zero_le _, hi, hfails⟩
    rcases zipClose_eq codec hsurvivors hchanged env (.start old) with
      ⟨u', v, hdraft', hclose, -⟩ | ⟨des, u', hdraft', hclose⟩
    · -- the archive cannot be written, in whatever surroundings
      rw [hsame hfailing] at hdraft'
      cases hdraft'
      rw [hclose]
      exact iff_of_true (fun _ _ _ _ => rfl) fun n hn => by cases hn
    · rw [hsame hfailing] at hdraft'
      cases hdraft'
      have hresult := (afterDraft_file des env u).1
      rw [hclose, ops_afterDraft, hresult]
      constructor
      · rintro hnotice n hn - hflush
        cases hn
        refine hnotice u.ops ?_ (by omega) hflush
        -- the draft began with the step that did not fail
        rw [Nat.pos_iff_ne_zero]
        intro hzero
        rw [hzero, hbegin] at hflush
        cases hflush
      · intro hflush i hpos hi hfails
        by_cases hlast : i = u.ops + 1
        · rwa [hlast] at hfails
        · have hle : i ≤ u.ops := by omega
          rcases Nat.lt_or_eq_of_le hle with hlt | rfl
          · rw [hcalm i hlt] at hfails
            cases hfails
          · exact hflush _ rfl hcalm hfails

/-- **A failing close**: whatever fails once writing has begun, `zip_close` fails and
is rolled back, just where neither the prefix fails nor only the `fclose`. -/
theorem failsCleanly_iff (codec : Codec) {za : Zip} (hsurvivors : za.survivors ≠ [])
    (hchanged : za.changed = true) (env : Env) (old : Option Bytes) :
    FailsCleanly codec za env old ↔ CleanFailure codec za env old := by
  cases hbegin : env.fails 0 with
  | true =>
      -- nothing was begun
      have hnever : ¬ env.fails 0 = false := by simp [hbegin]
      exact iff_of_true ⟨fun h => absurd h hnever, fun h => absurd h hnever⟩
        ⟨fun h => absurd h hnever, fun h => absurd h hnever⟩
  | false =>
      have hrolls := @rollsBack_iff codec za env old hsurvivors hchanged hbegin
      have hnotices := @notices_iff codec za env old hsurvivors hchanged hbegin
      constructor
      · intro h
        exact ⟨fun _ => hrolls.mp (h.rollsBack hbegin), fun _ => hnotices.mp (h.notices hbegin)⟩
      · intro h
        exact ⟨fun _ => hrolls.mpr (h.prefixdata hbegin),
          fun _ => hnotices.mpr (h.flush hbegin)⟩

end Errors

/-- An archive of one new, empty module, with a prefix. -/
def newArchive : Zip :=
  { Zip.allocateNew false with
    entries := [⟨none, some ⟨{ Dirent.init with filename := allexeMain }, false, true⟩,
      some ⟨[], 0, 0⟩, false⟩]
    prefixdata := some (shebang (ascii "/alley")) }

/-- Nothing can be written any more once the prefix was. -/
theorem failsCleanly_iff_full :
    FailsCleanly storingCodec newArchive ⟨(2 ≤ ·), []⟩ none := by
  refine (failsCleanly_iff storingCodec (by decide) (by decide) _ none).mpr ⟨fun _ _ => rfl, ?_⟩
  intro _ n _ _ hflush
  have hle : 2 ≤ n := of_decide_eq_true hflush
  exact decide_eq_true (by omega)

/-- The prefix cannot be written: the temporary output stays, and a write is in
progress. -/
theorem prefix_leaves_output :
    (zipClose storingCodec newArchive ⟨(· == 1), []⟩ (.start none)).1 = none ∧
      (zipClose storingCodec newArchive ⟨(· == 1), []⟩ (.start none)).2 =
        ⟨none, some [], 0, true, 2⟩ ∧
      ¬ FailsCleanly storingCodec newArchive ⟨(· == 1), []⟩ none := by
  obtain ⟨herror, hworld⟩ := @prefix_not_rolledBack storingCodec newArchive ⟨(· == 1), []⟩ none
    (by decide) (by decide) rfl rfl rfl
  refine ⟨herror, hworld, ?_⟩
  intro h
  have htemp := (h.rollsBack rfl herror).temp
  rw [hworld] at htemp
  cases htemp

end Archive
end AllvmTools
