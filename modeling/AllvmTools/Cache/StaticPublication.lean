import AllvmTools.Cache.StaticBinaryCache
import AllvmTools.Library.Runs

/-!
# Two stores of one key in the static binary cache

The steps of `StaticBinaryCache::notifyObjectCompiled` in two processes that use
the same key, and so the same temporary and final names: open and truncate the
temporary file, one write per chunk, close, chmod, rename.  Files are nodes with
names; a descriptor keeps its node whatever happens to the names.

* `published_of_noOverlap` — while no process opens the temporary file inside
  the other's section, the final file is complete and nobody fails.
* `Doomed` — after an overlapping open, two renames wait for one name, and one
  of the processes must fail.
* `publication` — both together.
-/

namespace AllvmTools
namespace Cache
namespace StaticPublication

open Library Library.Files Library.Runs

inductive Process where
  | first | second
deriving DecidableEq, Repr

def Process.other : Process → Process
  | first => second
  | second => first

@[simp] theorem Process.other_other (p : Process) : p.other.other = p := by
  cases p <;> rfl

theorem Process.eq_or_eq_other (p q : Process) : q = p ∨ q = p.other := by
  cases p <;> cases q <;> simp [other]

@[simp] theorem Process.other_ne (p : Process) : p.other ≠ p := by
  cases p <;> simp [other]

/-- Where a process stands in `notifyObjectCompiled`. -/
inductive Phase where
  | start
  /-- In `copy_file`, with a descriptor for `node`, at file offset `off`. -/
  | copying (node : Nat) (rest : List Bytes) (off : Nat)
  | closed
  | chmodded
  | done
  /-- `exit(1)`. -/
  | failed
deriving DecidableEq, Repr

/-- The two names of the key, the nodes, and both processes. -/
structure State where
  tmp : Option Nat
  final : Option Nat
  content : Nat → Bytes
  /-- The owner may open the node for writing. -/
  writable : Nat → Bool
  /-- The next free node. -/
  next : Nat
  phase : Process → Phase

def init : State where
  tmp := none
  final := none
  content := fun _ => []
  writable := fun _ => true
  next := 0
  phase := fun _ => .start

/-- Process `p` moves on to a phase. -/
def State.goto (s : State) (p : Process) (phase : Phase) : State :=
  { s with phase := Function.update s.phase p phase }

/-- One step of `p`; `src` gives each process the chunks its copy is read in. -/
def step (src : Process → List Bytes) (s : State) (p : Process) : State :=
  match s.phase p with
  | .start =>
      match s.tmp with
      | none =>
          { s with
            tmp := some s.next
            content := Function.update s.content s.next []
            writable := Function.update s.writable s.next true
            next := s.next + 1
            phase := Function.update s.phase p (.copying s.next (src p) 0) }
      | some node =>
          if s.writable node then
            { s with
              content := Function.update s.content node []
              phase := Function.update s.phase p (.copying node (src p) 0) }
          else
            s.goto p .failed
  | .copying node (chunk :: rest) off =>
      { s with
        content := Function.update s.content node (writeAt (s.content node) off chunk)
        phase := Function.update s.phase p (.copying node rest (off + chunk.length)) }
  | .copying _ [] _ => s.goto p .closed
  | .closed =>
      match s.tmp with
      | none => s.goto p .failed
      | some node =>
          { s with
            writable := Function.update s.writable node false
            phase := Function.update s.phase p .chmodded }
  | .chmodded =>
      match s.tmp with
      | none => s.goto p .failed
      | some node =>
          { s with
            tmp := none
            final := some node
            phase := Function.update s.phase p .done }
  | .done => s
  | .failed => s

/-- The state after a schedule. -/
def run (src : Process → List Bytes) (schedule : List Process) : State :=
  schedule.foldl (step src) init

/-- The binary a process publishes. -/
def binary (src : Process → List Bytes) (p : Process) : Bytes :=
  (src p).flatten

/-! ## Safe schedules -/

/-- A process holds a descriptor for `node`. -/
def HasDescriptor (phase : Phase) (node : Nat) : Prop :=
  ∃ rest off, phase = .copying node rest off

/-- The final file is a complete copy and nobody can write into it. -/
def Safe (src : Process → List Bytes) (s : State) : Prop :=
  ∀ node, s.final = some node →
    (∃ p, s.content node = binary src p) ∧ s.writable node = false ∧
      ∀ p, ¬ HasDescriptor (s.phase p) node

/-- In every state the schedule reaches the final file is safe and no process
has taken an error exit. -/
def Published (src : Process → List Bytes) (schedule : List Process) : Prop :=
  ∀ pre post, schedule = pre ++ post →
    Safe src (run src pre) ∧ ∀ p, (run src pre).phase p ≠ .failed

/-- Between its open and its rename. -/
def InSection : Phase → Prop
  | .copying _ _ _ => True
  | .closed => True
  | .chmodded => True
  | _ => False

/-- Some process opens the temporary file inside the other's section. -/
def Overlap (src : Process → List Bytes) (schedule : List Process) : Prop :=
  ∃ pre p post, schedule = pre ++ p :: post ∧
    (run src pre).phase p = .start ∧ InSection ((run src pre).phase p.other)

/-- Both processes have returned or exited. -/
def Complete (src : Process → List Bytes) (schedule : List Process) : Prop :=
  ∀ p, (run src schedule).phase p = .done ∨ (run src schedule).phase p = .failed

/-! ## Schedules without overlap -/

variable {src : Process → List Bytes}

/-- How far `p` has got with the node behind the temporary name. -/
def CopyProgress (src : Process → List Bytes) (p : Process) (node : Nat) (content : Bytes)
    (writable : Bool) : Phase → Prop
  | .copying node' rest off =>
      node' = node ∧ content.length = off ∧ content ++ rest.flatten = binary src p
  | .closed => content = binary src p
  | .chmodded => content = binary src p ∧ writable = false
  | _ => False

/-- `p` is alone in its section, and the temporary name is its own node. -/
structure Active (src : Process → List Bytes) (s : State) (p : Process) (node : Nat) : Prop where
  tmp : s.tmp = some node
  lt : node < s.next
  unpublished : s.final ≠ some node
  otherOut : ¬ InSection (s.phase p.other)
  progress : CopyProgress src p node (s.content node) (s.writable node) (s.phase p)

/-- **The invariant**: no failure, a complete final file, and at most one
process in its section. -/
structure Exclusive (src : Process → List Bytes) (s : State) : Prop where
  noFailure : ∀ p, s.phase p ≠ .failed
  final : ∀ node, s.final = some node →
    node < s.next ∧ (∃ p, s.content node = binary src p) ∧ s.writable node = false
  stage : (s.tmp = none ∧ ∀ p, ¬ InSection (s.phase p)) ∨ ∃ p node, Active src s p node

theorem CopyProgress.inSection {p : Process} {node : Nat} {content : Bytes} {writable : Bool}
    {phase : Phase} (h : CopyProgress src p node content writable phase) : InSection phase := by
  cases phase <;> trivial

theorem exclusive_init : Exclusive src init where
  noFailure := fun _ h => nomatch h
  final := fun _ h => nomatch h
  stage := Or.inl ⟨rfl, fun _ => id⟩

/-- Only the process that moves changes its phase. -/
theorem forall_phase_update {phase : Process → Phase} {q : Process} {new : Phase}
    (P : Phase → Prop) (hself : P new) (hother : P (phase q.other)) :
    ∀ p, P (Function.update phase q new p) := by
  intro p
  rcases q.eq_or_eq_other p with rfl | rfl
  · rwa [Function.update_self]
  · rwa [Function.update_of_ne q.other_ne]

/-- With nobody in a section, an open creates a new node. -/
theorem exclusive_open {s : State} {q : Process} (hs : Exclusive src s)
    (hphase : s.phase q = .start) (htmp : s.tmp = none)
    (hout : ∀ p, ¬ InSection (s.phase p)) : Exclusive src (step src s q) := by
  have hstep : step src s q =
      { s with
        tmp := some s.next
        content := Function.update s.content s.next []
        writable := Function.update s.writable s.next true
        next := s.next + 1
        phase := Function.update s.phase q (.copying s.next (src q) 0) } := by
    simp only [step, hphase, htmp]
  rw [hstep]
  refine ⟨forall_phase_update (· ≠ .failed) (by simp) (hs.noFailure _), ?_, Or.inr ⟨q, s.next, ?_⟩⟩
  · intro node hnode
    obtain ⟨hlt, hcontent, hwritable⟩ := hs.final node hnode
    have hne : node ≠ s.next := Nat.ne_of_lt hlt
    simp only [Function.update_of_ne hne]
    exact ⟨Nat.lt_succ_of_lt hlt, hcontent, hwritable⟩
  · refine ⟨rfl, Nat.lt_succ_self _, ?_, ?_, ?_⟩
    · intro hfinal
      exact absurd (hs.final _ hfinal).1 (Nat.lt_irrefl _)
    · simpa only [Function.update_of_ne q.other_ne] using hout q.other
    · simp [CopyProgress, binary]

/-- A step of the process in its section. -/
theorem exclusive_active {s : State} {p : Process} {node : Nat} (hs : Exclusive src s)
    (hactive : Active src s p node) : Exclusive src (step src s p) := by
  have hne : ∀ other, s.final = some other → other ≠ node := by
    rintro other hfinal rfl
    exact hactive.unpublished hfinal
  have hprogress := hactive.progress
  cases hphase : s.phase p with
  | start => rw [hphase] at hprogress; exact hprogress.elim
  | done => rw [hphase] at hprogress; exact hprogress.elim
  | failed => rw [hphase] at hprogress; exact hprogress.elim
  | copying node' rest off =>
      rw [hphase] at hprogress
      obtain ⟨rfl, rfl, hbinary⟩ := hprogress
      -- after the last chunk the file is closed, before it one more goes to the end
      cases rest with
      | nil =>
          have hstep : step src s p = s.goto p .closed := by simp only [step, hphase]
          rw [hstep]
          refine ⟨forall_phase_update (· ≠ .failed) (by simp) (hs.noFailure _), hs.final,
            Or.inr ⟨p, node', hactive.tmp, hactive.lt, hactive.unpublished, ?_, ?_⟩⟩
          · simpa only [State.goto, Function.update_of_ne p.other_ne] using hactive.otherOut
          · simpa [State.goto, CopyProgress] using hbinary
      | cons chunk rest =>
          have hstep : step src s p =
              { s with
                content := Function.update s.content node'
                  (writeAt (s.content node') (s.content node').length chunk)
                phase := Function.update s.phase p
                  (.copying node' rest ((s.content node').length + chunk.length)) } := by
            simp only [step, hphase]
          rw [hstep, writeAt_length]
          refine ⟨forall_phase_update (· ≠ .failed) (by simp) (hs.noFailure _), ?_,
            Or.inr ⟨p, node', hactive.tmp, hactive.lt, hactive.unpublished, ?_, ?_⟩⟩
          · intro other hother
            simpa only [Function.update_of_ne (hne other hother)] using hs.final other hother
          · simpa only [Function.update_of_ne p.other_ne] using hactive.otherOut
          · simpa [CopyProgress] using hbinary
  | closed =>
      rw [hphase] at hprogress
      -- what is made read-only is what the temporary name stands for
      have hstep : step src s p =
          { s with
            writable := Function.update s.writable node false
            phase := Function.update s.phase p .chmodded } := by
        simp only [step, hphase, hactive.tmp]
      rw [hstep]
      refine ⟨forall_phase_update (· ≠ .failed) (by simp) (hs.noFailure _), ?_,
        Or.inr ⟨p, node, hactive.tmp, hactive.lt, hactive.unpublished, ?_, ?_⟩⟩
      · intro other hother
        simpa only [Function.update_of_ne (hne other hother)] using hs.final other hother
      · simpa only [Function.update_of_ne p.other_ne] using hactive.otherOut
      · simpa [CopyProgress] using hprogress
  | chmodded =>
      rw [hphase] at hprogress
      obtain ⟨hcontent, hwritable⟩ := hprogress
      -- the rename publishes a node that nobody writes any more
      have hstep : step src s p =
          { s with
            tmp := none
            final := some node
            phase := Function.update s.phase p .done } := by
        simp only [step, hphase, hactive.tmp]
      rw [hstep]
      refine ⟨forall_phase_update (· ≠ .failed) (by simp) (hs.noFailure _), ?_, Or.inl ⟨rfl, ?_⟩⟩
      · intro other hother
        obtain rfl := Option.some.inj hother
        exact ⟨hactive.lt, ⟨p, hcontent⟩, hwritable⟩
      · exact forall_phase_update (¬ InSection ·) (by simp [InSection]) hactive.otherOut

/-- A process outside its section that does not open stands still. -/
theorem step_of_out {s : State} {q : Process} (hstart : s.phase q ≠ .start)
    (hout : ¬ InSection (s.phase q)) : step src s q = s := by
  unfold step
  cases hphase : s.phase q with
  | start => exact absurd hphase hstart
  | copying node rest off => exact absurd (by rw [hphase]; trivial) hout
  | closed => exact absurd (by rw [hphase]; trivial) hout
  | chmodded => exact absurd (by rw [hphase]; trivial) hout
  | done => rfl
  | failed => rfl

/-- **A step that is no overlapping open keeps the invariant.** -/
theorem exclusive_step {s : State} {q : Process} (hs : Exclusive src s)
    (hopen : s.phase q = .start → ¬ InSection (s.phase q.other)) :
    Exclusive src (step src s q) := by
  rcases hs.stage with ⟨htmp, hout⟩ | ⟨p, node, hactive⟩
  · by_cases hstart : s.phase q = .start
    · exact exclusive_open hs hstart htmp hout
    · rwa [step_of_out hstart (hout q)]
  · rcases p.eq_or_eq_other q with rfl | rfl
    · exact exclusive_active hs hactive
    · by_cases hstart : s.phase p.other = .start
      · have hother := hopen hstart
        rw [p.other_other] at hother
        exact absurd hactive.progress.inSection hother
      · rwa [step_of_out hstart hactive.otherOut]

/-- The invariant makes a state safe. -/
theorem Exclusive.safe {s : State} (hs : Exclusive src s) : Safe src s := by
  intro node hnode
  obtain ⟨-, hcontent, hwritable⟩ := hs.final node hnode
  refine ⟨hcontent, hwritable, ?_⟩
  rintro p ⟨rest, off, hphase⟩
  have hin : InSection (s.phase p) := by
    rw [hphase]
    trivial
  rcases hs.stage with ⟨-, hout⟩ | ⟨q, node', hactive⟩
  · exact hout p hin
  · rcases q.eq_or_eq_other p with rfl | rfl
    · have hprogress := hactive.progress
      rw [hphase] at hprogress
      obtain ⟨rfl, -⟩ := hprogress
      exact hactive.unpublished hnode
    · exact hactive.otherOut hin

theorem run_append (pre post : List Process) :
    run src (pre ++ post) = post.foldl (step src) (run src pre) :=
  List.foldl_append

theorem run_snoc (pre : List Process) (p : Process) :
    run src (pre ++ [p]) = step src (run src pre) p :=
  run_append pre [p]

/-- A schedule without overlap keeps the invariant. -/
theorem exclusive_run {schedule : List Process} (hopen : ¬ Overlap src schedule) :
    Exclusive src (run src schedule) := by
  induction schedule using List.reverseRecOn with
  | nil => exact exclusive_init
  | append_singleton pre p ih =>
      rw [run_snoc]
      refine exclusive_step (ih fun hpre => hopen ?_) fun hstart hin => hopen ?_
      · obtain ⟨pre', q, post, rfl, hoverlap⟩ := hpre
        exact ⟨pre', q, post ++ [p], by simp, hoverlap⟩
      · exact ⟨pre, p, [], rfl, hstart, hin⟩

theorem published_of_noOverlap {schedule : List Process} (hopen : ¬ Overlap src schedule) :
    Published src schedule := by
  rintro pre post rfl
  have hpre : ¬ Overlap src pre := by
    rintro ⟨pre', p, post', rfl, hoverlap⟩
    exact hopen ⟨pre', p, post' ++ post, by simp, hoverlap⟩
  exact ⟨(exclusive_run hpre).safe, (exclusive_run hpre).noFailure⟩

/-! ## After an overlapping open -/

/-- Both processes have opened, not both have renamed, and once one has there is
no temporary name left for the other. -/
structure Doomed (s : State) : Prop where
  opened : ∀ p, s.phase p ≠ .start
  notBoth : ∃ p, s.phase p ≠ .done
  nameless : ∀ p, s.phase p = .done → s.tmp = none

/-- Moving to a phase that is neither the start nor the end. -/
theorem doomed_move {s t : State} {q : Process} {new : Phase} (hs : Doomed s)
    (hphase : t.phase = Function.update s.phase q new) (htmp : t.tmp = s.tmp)
    (hstart : new ≠ .start) (hdone : new ≠ .done) : Doomed t := by
  refine ⟨?_, ⟨q, by simpa [hphase] using hdone⟩, fun p hp => ?_⟩
  · rw [hphase]
    exact forall_phase_update (· ≠ .start) hstart (hs.opened _)
  · rcases q.eq_or_eq_other p with rfl | rfl
    · rw [hphase, Function.update_self] at hp
      exact absurd hp hdone
    · rw [hphase, Function.update_of_ne q.other_ne] at hp
      rw [htmp]
      exact hs.nameless _ hp

/-- Every step leaves the processes doomed. -/
theorem doomed_step {s : State} {q : Process} (hs : Doomed s) : Doomed (step src s q) := by
  unfold step
  cases hphase : s.phase q with
  | start => exact absurd hphase (hs.opened q)
  | copying node rest off =>
      cases rest with
      | nil => exact doomed_move hs rfl rfl (by simp) (by simp)
      | cons chunk rest => exact doomed_move hs rfl rfl (by simp) (by simp)
  | closed =>
      cases htmp : s.tmp with
      | none => exact doomed_move hs rfl rfl (by simp) (by simp)
      | some node => exact doomed_move hs rfl htmp.symm (by simp) (by simp)
  | chmodded =>
      cases htmp : s.tmp with
      | none => exact doomed_move hs rfl rfl (by simp) (by simp)
      | some node =>
          -- the other one cannot have renamed: the name is still there
          have hother : s.phase q.other ≠ .done := by
            intro hdone
            have hnone := hs.nameless _ hdone
            rw [htmp] at hnone
            cases hnone
          refine ⟨forall_phase_update (· ≠ .start) (by simp) (hs.opened _), ⟨q.other, ?_⟩,
            fun _ _ => rfl⟩
          simpa only [Function.update_of_ne q.other_ne] using hother
  | done => exact hs
  | failed => exact hs

theorem doomed_foldl (schedule : List Process) {s : State} (hs : Doomed s) :
    Doomed (schedule.foldl (step src) s) := by
  induction schedule generalizing s with
  | nil => exact hs
  | cons p schedule ih => exact ih (doomed_step hs)

/-- An open inside the other's section dooms both. -/
theorem doomed_of_overlap {s : State} {p : Process} (hstart : s.phase p = .start)
    (hin : InSection (s.phase p.other)) : Doomed (step src s p) := by
  have hother : s.phase p.other ≠ .start ∧ s.phase p.other ≠ .done := by
    constructor <;>
    · intro h
      rw [h] at hin
      exact hin
  obtain ⟨new, hnew, hnewStart, hnewDone⟩ : ∃ new,
      (step src s p).phase = Function.update s.phase p new ∧ new ≠ .start ∧ new ≠ .done := by
    unfold step
    rw [hstart]
    cases s.tmp with
    | none => exact ⟨_, rfl, by simp, by simp⟩
    | some node =>
        by_cases hwritable : s.writable node
        · simp only [hwritable, if_true]
          exact ⟨_, rfl, by simp, by simp⟩
        · simp only [hwritable]
          exact ⟨_, rfl, by simp, by simp⟩
  refine ⟨?_, ⟨p, by simpa [hnew] using hnewDone⟩, fun q hq => ?_⟩
  · rw [hnew]
    exact forall_phase_update (· ≠ .start) hnewStart hother.1
  · rw [hnew] at hq
    exact absurd hq (forall_phase_update (· ≠ .done) hnewDone hother.2 q)

theorem failed_of_overlap {schedule : List Process} (hoverlap : Overlap src schedule)
    (hcomplete : Complete src schedule) : ∃ p, (run src schedule).phase p = .failed := by
  obtain ⟨pre, p, post, rfl, hstart, hin⟩ := hoverlap
  have hdoomed : Doomed (run src (pre ++ p :: post)) := by
    rw [run_append]
    exact doomed_foldl post (doomed_of_overlap hstart hin)
  obtain ⟨q, hq⟩ := hdoomed.notBoth
  exact ⟨q, (hcomplete q).resolve_left hq⟩

/-- **Publication of one key by two processes**: without an overlapping open
every reached state is safe, and a complete schedule publishes only without one. -/
theorem publication (src : Process → List Bytes) (schedule : List Process) :
    (¬ Overlap src schedule → Published src schedule) ∧
      (Complete src schedule → (Published src schedule ↔ ¬ Overlap src schedule)) := by
  refine ⟨published_of_noOverlap, fun hcomplete => ⟨fun hpublished hoverlap => ?_,
    published_of_noOverlap⟩⟩
  obtain ⟨p, hp⟩ := failed_of_overlap hoverlap hcomplete
  exact (hpublished schedule [] (by simp)).2 p hp

/-- The second process opens and truncates what the first has just copied; the
first one's rename makes that empty file final while the second still writes. -/
theorem shared_temporary_is_published :
    ¬ Published (fun _ => [[127, 69]])
        [.first, .first, .first, .second, .first, .first] ∧
    (run (fun _ => [[127, 69]])
        [.first, .first, .first, .second, .first, .first]).final = some 0 ∧
    (run (fun _ => [[127, 69]])
        [.first, .first, .first, .second, .first, .first]).content 0 = [] := by
  refine ⟨fun hpublished => ?_, rfl, rfl⟩
  obtain ⟨⟨p, hcontent⟩, -⟩ := (hpublished _ [] (List.append_nil _).symm).1 0 rfl
  have hempty : ([] : Bytes) = [127, 69] := hcontent
  cases hempty

end StaticPublication
end Cache
end AllvmTools
