import AllvmTools.Cache.JITCache

/-!
# Concurrent stores into one object file

`JITCache::notifyObjectCompiled` opens the final cache path itself, so a store is
a sequence of steps every reader can fall between: create or truncate, one write
per chunk, close.  Any number of processes take these steps in any order and may
stop after any of them.

* `Guarded` — the steps that do not meet another store half way: a chunk is
  written only where it leaves the last opener's bytes as they are, and a reader
  comes only when the last opener has written everything.
* `Owned` — the invariant of runs of such steps: the file carries what its last
  opener has written.
* `reads_complete_of_guarded` — in these runs every hit is a complete object.
-/

namespace AllvmTools
namespace Cache
namespace JITPublication

open Library Library.Text Library.Paths Library.Files Library.Runs

/-- A process in its `notifyObjectCompiled` call. -/
structure Writer where
  obj : Bytes
  /-- The file offset of its descriptor. -/
  written : Nat
  /-- The descriptor is still open. -/
  running : Bool
deriving DecidableEq, Repr

/-- The cache path and every process that ever opened it for writing. -/
structure State where
  file : Option Bytes
  writers : Nat → Option Writer
  /-- History: who created or truncated the file last. -/
  opener : Option Nat

inductive Event where
  /-- `raw_fd_ostream outfile(CacheName, EC, F_None)` by process `w`. -/
  | openFile (w : Nat) (obj : Bytes)
  /-- The next `n` bytes of `outfile.write`. -/
  | writeChunk (w n : Nat)
  /-- `outfile.close()`. -/
  | closeFile (w : Nat)
  /-- The process ends here, or its write failed. -/
  | stop (w : Nat)
  /-- `getObject` by any process, with its result. -/
  | getObject (found : Option Bytes)
  /-- `hasObjectFor` by any process, with its result. -/
  | hasObjectFor (hit : Bool)
deriving DecidableEq, Repr

/-- Nothing stored yet. -/
def init : State where
  file := none
  writers := fun _ => none
  opener := none

/-- One step; `none` where the event cannot happen. -/
def step (s : State) : Event → Option State
  | .openFile w obj =>
      match s.writers w with
      | none =>
          some
            { file := some []
              writers := Function.update s.writers w (some ⟨obj, 0, true⟩)
              opener := some w }
      | some _ => none
  | .writeChunk w n =>
      match s.writers w with
      | some ⟨obj, written, true⟩ =>
          if 0 < n ∧ written + n ≤ obj.length then
            some
              { s with
                file := s.file.map fun content =>
                  writeAt content written ((obj.drop written).take n)
                writers := Function.update s.writers w (some ⟨obj, written + n, true⟩) }
          else
            none
      | _ => none
  | .closeFile w =>
      match s.writers w with
      | some ⟨obj, written, true⟩ =>
          if written = obj.length then
            some { s with
              writers := Function.update s.writers w (some ⟨obj, written, false⟩) }
          else
            none
      | _ => none
  | .stop w =>
      match s.writers w with
      | some ⟨obj, written, true⟩ =>
          some { s with
            writers := Function.update s.writers w (some ⟨obj, written, false⟩) }
      | _ => none
  | .getObject found => if found = s.file then some s else none
  | .hasObjectFor hit => if hit = s.file.isSome then some s else none

/-- The step relation. -/
def Step (s : State) (e : Event) (t : State) : Prop :=
  step s e = some t

/-- `obj` was passed to a `notifyObjectCompiled` call in this run. -/
def Passed (done : List Event) (obj : Bytes) : Prop :=
  ∃ w, Event.openFile w obj ∈ done

/-- What a read may show: nothing, or the complete bytes of a passed object. -/
def ReadComplete (done : List Event) (s : State) : Event → Prop
  | .getObject found => ∀ bytes, found = some bytes → Passed done bytes
  | .hasObjectFor hit => hit = true → ∃ bytes, s.file = some bytes ∧ Passed done bytes
  | _ => True

/-- The last opener, if any, has written all of its object. -/
def Finished (s : State) : Prop :=
  ∀ b, s.opener = some b → ∀ owner, s.writers b = some owner →
    owner.written = owner.obj.length

/-- The next `n` bytes of `w` fall inside the last opener's object and repeat
what that one has already written there. -/
def Harmless (s : State) (w n : Nat) : Prop :=
  ∀ b, s.opener = some b → b ≠ w → ∀ owner, s.writers b = some owner →
    ∀ writer, s.writers w = some writer →
      writer.written + n ≤ owner.obj.length ∧
        ∀ i < n, writer.written + i < owner.written →
          writer.obj[writer.written + i]? = owner.obj[writer.written + i]?

/-- The condition on a step: writes are harmless, reads come between stores. -/
def Undisturbed (s : State) : Event → Prop
  | .writeChunk w n => Harmless s w n
  | .getObject _ => Finished s
  | .hasObjectFor _ => Finished s
  | _ => True

/-- The steps that meet the condition. -/
def Guarded (s : State) (e : Event) (t : State) : Prop :=
  Step s e t ∧ Undisturbed s e

/-! ## The invariant -/

/-- **The invariant**: every writer's object was passed and it never runs past
its end, and the file carries what the last opener has written. -/
structure Owned (done : List Event) (s : State) : Prop where
  passed : ∀ w writer, s.writers w = some writer → Passed done writer.obj
  bounded : ∀ w writer, s.writers w = some writer → writer.written ≤ writer.obj.length
  carried : ∀ content, s.file = some content →
    ∃ b owner, s.opener = some b ∧ s.writers b = some owner ∧
      Carries owner.obj owner.written content

theorem owned_init : Owned [] init where
  passed := fun _ _ h => nomatch h
  bounded := fun _ _ h => nomatch h
  carried := fun _ h => nomatch h

theorem Passed.snoc {done : List Event} {obj : Bytes} (h : Passed done obj) (e : Event) :
    Passed (done ++ [e]) obj := by
  obtain ⟨w, hw⟩ := h
  exact ⟨w, List.mem_append_left _ hw⟩

/-- Replacing one writer by one with a property keeps that property for all. -/
theorem forall_update_writer {writers : Nat → Option Writer} {w : Nat} {new : Writer}
    {P : Writer → Prop} (hold : ∀ v writer, writers v = some writer → P writer) (hnew : P new) :
    ∀ v writer, Function.update writers w (some new) v = some writer → P writer := by
  intro v writer hv
  by_cases hvw : v = w
  · subst hvw
    simp only [Function.update_self, Option.some.injEq] at hv
    exact hv ▸ hnew
  · rw [Function.update_of_ne hvw] at hv
    exact hold v writer hv

/-- Creating or truncating starts a new object with no byte carried. -/
theorem owned_openFile {done : List Event} {s t : State} {w : Nat} {obj : Bytes}
    (hs : Owned done s) (hstep : Step s (.openFile w obj) t) :
    Owned (done ++ [.openFile w obj]) t := by
  unfold Step step at hstep
  cases hw : s.writers w with
  | some _ => simp [hw] at hstep
  | none =>
      simp only [hw, Option.some.injEq] at hstep
      subst hstep
      refine ⟨forall_update_writer (fun v writer hv => (hs.passed v writer hv).snoc _)
          ⟨w, by simp⟩,
        forall_update_writer hs.bounded (Nat.zero_le _), fun content hcontent => ?_⟩
      · obtain rfl := Option.some.inj hcontent
        exact ⟨w, ⟨obj, 0, true⟩, rfl, by simp, carries_nil obj⟩

/-- What a write step needs and does. -/
theorem step_writeChunk {s t : State} {w n : Nat} (hstep : Step s (.writeChunk w n) t) :
    ∃ obj written, s.writers w = some ⟨obj, written, true⟩ ∧ 0 < n ∧
      written + n ≤ obj.length ∧
      t = { s with
        file := s.file.map fun content => writeAt content written ((obj.drop written).take n)
        writers := Function.update s.writers w (some ⟨obj, written + n, true⟩) } := by
  unfold Step step at hstep
  rcases hw : s.writers w with _ | ⟨obj, written, _ | _⟩
  · simp [hw] at hstep
  · simp [hw] at hstep
  · simp only [hw] at hstep
    split at hstep
    · next hn => exact ⟨obj, written, rfl, hn.1, hn.2, (Option.some.inj hstep).symm⟩
    · cases hstep

/-- A harmless write keeps the invariant. -/
theorem owned_writeChunk {done : List Event} {s t : State} {w n : Nat}
    (hs : Owned done s) (hstep : Step s (.writeChunk w n) t) (hharmless : Harmless s w n) :
    Owned (done ++ [.writeChunk w n]) t := by
  obtain ⟨obj, written, hw, -, hn, rfl⟩ := step_writeChunk hstep
  refine ⟨forall_update_writer (fun v writer hv => (hs.passed v writer hv).snoc _)
      ((hs.passed w _ hw).snoc _),
    forall_update_writer hs.bounded hn, fun content hcontent => ?_⟩
  · obtain ⟨before, hbefore, rfl⟩ := Option.map_eq_some_iff.mp hcontent
    obtain ⟨b, owner, hopener, howner, hcarries⟩ := hs.carried before hbefore
    by_cases hbw : b = w
    · subst hbw
      obtain rfl := Option.some.inj (hw.symm.trans howner)
      exact ⟨b, ⟨obj, written + n, true⟩, hopener, by simp, hcarries.writeNext hn⟩
    · refine ⟨b, owner, hopener, by simp [Function.update_of_ne hbw, howner], ?_⟩
      obtain ⟨hfits, hagrees⟩ := hharmless b hopener hbw owner howner _ hw
      have hchunk : ((obj.drop written).take n).length = n := by
        rw [List.length_take, List.length_drop]
        omega
      refine hcarries.writeAt (hs.bounded b owner howner) (by rw [hchunk]; exact hfits) ?_
      intro i hi hlt
      rw [hchunk] at hi
      rw [List.getElem?_take_of_lt hi, List.getElem?_drop]
      exact hagrees i hi hlt

/-- Ending a process changes neither the file nor how far anyone has got. -/
theorem owned_end {done : List Event} {s : State} {w : Nat} {obj : Bytes} {written : Nat}
    (hs : Owned done s) (hw : s.writers w = some ⟨obj, written, true⟩) (e : Event) :
    Owned (done ++ [e])
      { s with writers := Function.update s.writers w (some ⟨obj, written, false⟩) } := by
  have hle : written ≤ obj.length := hs.bounded w _ hw
  refine ⟨forall_update_writer (fun v writer hv => (hs.passed v writer hv).snoc _)
      ((hs.passed w _ hw).snoc _),
    forall_update_writer hs.bounded hle, fun content hcontent => ?_⟩
  obtain ⟨b, owner, hopener, howner, hcarries⟩ := hs.carried content hcontent
  by_cases hbw : b = w
  · subst hbw
    obtain rfl := Option.some.inj (hw.symm.trans howner)
    exact ⟨b, ⟨obj, written, false⟩, hopener, Function.update_self .., hcarries⟩
  · exact ⟨b, owner, hopener, (Function.update_of_ne hbw ..).trans howner, hcarries⟩

theorem Owned.snoc {done : List Event} {s : State} (hs : Owned done s) (e : Event) :
    Owned (done ++ [e]) s where
  passed := fun w writer hw => (hs.passed w writer hw).snoc e
  bounded := hs.bounded
  carried := hs.carried

/-- **Every guarded step keeps the invariant.** -/
theorem owned_step (done : List Event) (s : State) (e : Event) (t : State)
    (hs : Owned done s) (hstep : Guarded s e t) : Owned (done ++ [e]) t := by
  obtain ⟨hstep, hguard⟩ := hstep
  cases e with
  | openFile w obj => exact owned_openFile hs hstep
  | writeChunk w n => exact owned_writeChunk hs hstep hguard
  | closeFile w =>
      unfold Step step at hstep
      -- only a writer that is running can close
      rcases hw : s.writers w with _ | ⟨obj, written, _ | _⟩
      · simp [hw] at hstep
      · simp [hw] at hstep
      · simp only [hw] at hstep
        split at hstep
        · obtain rfl := Option.some.inj hstep
          exact owned_end hs hw _
        · cases hstep
  | stop w =>
      unfold Step step at hstep
      rcases hw : s.writers w with _ | ⟨obj, written, _ | _⟩
      · simp [hw] at hstep
      · simp [hw] at hstep
      · simp only [hw] at hstep
        obtain rfl := Option.some.inj hstep
        exact owned_end hs hw _
  | getObject found =>
      simp only [Step, step, Option.ite_none_right_eq_some, Option.some.injEq] at hstep
      exact hstep.2 ▸ hs.snoc _
  | hasObjectFor hit =>
      simp only [Step, step, Option.ite_none_right_eq_some, Option.some.injEq] at hstep
      exact hstep.2 ▸ hs.snoc _

theorem owned_run {labels : List Event} {s : State} (hrun : Trace Guarded init labels s) :
    Owned labels s :=
  hrun.invariant Owned owned_init owned_step

/-! ## What readers see -/

/-- Between stores the file is absent or one of the passed objects. -/
theorem Owned.complete {done : List Event} {s : State} (hs : Owned done s)
    (hfinished : Finished s) {content : Bytes} (hfile : s.file = some content) :
    Passed done content := by
  obtain ⟨b, owner, hopener, howner, hcarries⟩ := hs.carried content hfile
  rw [hfinished b hopener owner howner] at hcarries
  rw [hcarries.eq]
  exact hs.passed b owner howner

/-- **In every run of guarded steps, every read is complete.** -/
theorem reads_complete_of_guarded {labels : List Event} {s t : State} {e : Event}
    (hrun : Trace Guarded init labels s) (hstep : Guarded s e t) :
    ReadComplete labels s e := by
  have howned := owned_run hrun
  obtain ⟨hstep, hguard⟩ := hstep
  cases e with
  | getObject found =>
      intro bytes hfound
      simp only [Step, step, Option.ite_none_right_eq_some] at hstep
      exact howned.complete hguard (hstep.1 ▸ hfound)
  | hasObjectFor hit =>
      intro hhit
      simp only [Step, step, Option.ite_none_right_eq_some] at hstep
      obtain ⟨content, hcontent⟩ := Option.isSome_iff_exists.mp (hstep.1 ▸ hhit)
      exact ⟨content, hcontent, howned.complete hguard hcontent⟩
  | openFile => trivial
  | writeChunk => trivial
  | closeFile => trivial
  | stop => trivial

/-- Two stores of one object: the second begins before the first has written its last
byte, which then repeats what the second has written. -/
def twoStores : List Event :=
  [.openFile 0 [127, 69], .writeChunk 0 1, .openFile 1 [127, 69], .writeChunk 1 2,
    .writeChunk 0 1, .closeFile 0]

/-- A reader finds the object while the second store is still open. -/
theorem reads_complete_of_guarded_twoStores :
    ∃ s, Trace Guarded init twoStores s ∧
      ReadComplete twoStores s (.getObject (some [127, 69])) := by
  have hopened := Trace.nil.snoc (show Guarded init (.openFile 0 [127, 69]) _ from ⟨rfl, trivial⟩)
  have hfirst := hopened.snoc (show Guarded _ (.writeChunk 0 1) _ from
    ⟨rfl, fun b hb hne => absurd (Option.some.inj hb).symm hne⟩)
  have hreopened := hfirst.snoc (show Guarded _ (.openFile 1 [127, 69]) _ from ⟨rfl, trivial⟩)
  have hsecond := hreopened.snoc (show Guarded _ (.writeChunk 1 2) _ from
    ⟨rfl, fun b hb hne => absurd (Option.some.inj hb).symm hne⟩)
  have hrepeated := hsecond.snoc (show Guarded _ (.writeChunk 0 1) _ from ⟨rfl, by
    intro b hb _ owner howner writer hwriter
    obtain rfl := Option.some.inj hb
    obtain rfl := Option.some.inj howner
    obtain rfl := Option.some.inj hwriter
    exact ⟨by decide, by decide⟩⟩)
  have hrun := hrepeated.snoc (show Guarded _ (.closeFile 0) _ from ⟨rfl, trivial⟩)
  refine ⟨_, hrun, reads_complete_of_guarded hrun ⟨rfl, ?_⟩⟩
  intro b hb owner howner
  obtain rfl := Option.some.inj hb
  obtain rfl := Option.some.inj howner
  rfl

/-- A store that stops right after the open: the file it leaves is a hit, and
what is read is not the object. -/
theorem interrupted_store_is_read :
    ∃ s t, Trace Step init [.openFile 0 [127, 69], .stop 0] s ∧
      Step s (.getObject (some [])) t ∧
      ¬ ReadComplete [.openFile 0 [127, 69], .stop 0] s (.getObject (some [])) := by
  have hopened := Trace.nil.snoc (show Step init (.openFile 0 [127, 69]) _ from rfl)
  have hstopped := hopened.snoc (show Step _ (.stop 0) _ from rfl)
  refine ⟨_, _, hstopped, rfl, fun hcomplete => ?_⟩
  obtain ⟨w, hw⟩ := hcomplete [] rfl
  simp at hw

/-! ## One call on its own -/

/-- While only `w` takes steps, the file carries what it has written. -/
def Alone (w : Nat) (obj : Bytes) (s : State) : Prop :=
  ∃ written running content, s.writers w = some ⟨obj, written, running⟩ ∧
    s.file = some content ∧ Carries obj written content

theorem alone_openFile {s t : State} {w : Nat} {obj : Bytes}
    (hstep : Step s (.openFile w obj) t) : Alone w obj t := by
  unfold Step step at hstep
  cases hw : s.writers w with
  | some _ => simp [hw] at hstep
  | none =>
      simp only [hw, Option.some.injEq] at hstep
      subst hstep
      exact ⟨0, true, [], Function.update_self .., rfl, carries_nil obj⟩

theorem alone_writeChunk {s t : State} {w n : Nat} {obj : Bytes} (hs : Alone w obj s)
    (hstep : Step s (.writeChunk w n) t) : Alone w obj t := by
  obtain ⟨obj', written', hw, -, hn, rfl⟩ := step_writeChunk hstep
  obtain ⟨written, running, content, hw', hfile, hcarries⟩ := hs
  obtain ⟨rfl, rfl, -⟩ := Writer.mk.inj (Option.some.inj (hw.symm.trans hw'))
  exact ⟨written' + n, true, _, Function.update_self .., by simp [hfile],
    hcarries.writeNext hn⟩

/-- **An uninterrupted call stores what the sequential model stores.** -/
theorem uninterrupted_call {s t : State} {w : Nat} {obj : Bytes} {sizes : List Nat}
    {dir : CacheDirectory} {fs fs' : FileSystem} {modID file : Text}
    (hrun : Trace Step s ([.openFile w obj] ++ sizes.map (Event.writeChunk w) ++ [.closeFile w]) t)
    (hfile : JITCache.getCacheFilename dir modID = .ok (some file))
    (hstore : JITCache.notifyObjectCompiled dir fs modID obj true = .ok fs') :
    t.file = fs' (resolve file) := by
  have hstored : fs' = fs.write (resolve file) obj := by
    unfold JITCache.notifyObjectCompiled at hstore
    rw [hfile] at hstore
    exact (Except.ok.inj hstore).symm
  obtain ⟨u, hbefore, hclose⟩ := trace_snoc_iff.mp hrun
  have halone : Alone w obj u := by
    clear hrun hclose
    -- by the chunks written so far
    induction sizes using List.reverseRecOn generalizing u with
    | nil =>
        have hfirst : Trace Step s ([] ++ [.openFile w obj]) u := hbefore
        obtain ⟨v, -, hopen⟩ := trace_snoc_iff.mp hfirst
        exact alone_openFile hopen
    | append_singleton sizes n ih =>
        rw [List.map_append, ← List.append_assoc] at hbefore
        obtain ⟨v, hv, hwrite⟩ := trace_snoc_iff.mp hbefore
        exact alone_writeChunk (ih v hv) hwrite
  obtain ⟨written, running, content, hw, hcontent, hcarries⟩ := halone
  unfold Step step at hclose
  cases running with
  | false => simp [hw] at hclose
  | true =>
      simp only [hw, Option.ite_none_right_eq_some, Option.some.injEq] at hclose
      obtain ⟨hall, rfl⟩ := hclose
      rw [hall] at hcarries
      rw [hstored, write_self, hcontent, hcarries.eq]

end JITPublication
end Cache
end AllvmTools
