import Mathlib.Data.List.Induction

/-!
# Runs of a step relation

A run is a list of labels together with the two states it connects.  Runs grow
at the end, so an invariant may speak about the labels already taken.
-/

namespace AllvmTools
namespace Library
namespace Runs

variable {σ α ε : Type*}

/-- `Trace step done s t`: the labels `done`, taken in order, lead from `s` to `t`. -/
inductive Trace (step : σ → α → σ → Prop) (s : σ) : List α → σ → Prop
  | nil : Trace step s [] s
  | snoc {done : List α} {t : σ} {a : α} {u : σ}
      (hdone : Trace step s done t) (hstep : step t a u) : Trace step s (done ++ [a]) u

/-- A run with a last label is a shorter run and one more step. -/
theorem trace_snoc_iff {step : σ → α → σ → Prop} {s u : σ} {done : List α} {a : α} :
    Trace step s (done ++ [a]) u ↔ ∃ t, Trace step s done t ∧ step t a u := by
  constructor
  · intro hrun
    generalize hlabels : done ++ [a] = labels at hrun
    cases hrun with
    | nil => simp at hlabels
    | snoc hdone hstep =>
        obtain ⟨rfl, hlast⟩ := List.append_inj' hlabels rfl
        obtain rfl := List.singleton_inj.mp hlast
        exact ⟨_, hdone, hstep⟩
  · rintro ⟨t, hdone, hstep⟩
    exact hdone.snoc hstep

/-- **The invariant rule**: what holds at the start and is kept by every step
holds at the end of every run. -/
theorem Trace.invariant {step : σ → α → σ → Prop} {s t : σ} {labels : List α}
    (inv : List α → σ → Prop) (hrun : Trace step s labels t) (hinit : inv [] s)
    (hkeep : ∀ done t a u, inv done t → step t a u → inv (done ++ [a]) u) :
    inv labels t := by
  induction hrun with
  | nil => exact hinit
  | snoc _ hstep ih => exact hkeep _ _ _ _ ih hstep

/-- The invariant rule for runs whose labels all meet a condition. -/
theorem Trace.invariant_of_forall {step : σ → α → σ → Prop} {s t : σ} {labels : List α}
    (ok : α → Prop) (inv : List α → σ → Prop) (hrun : Trace step s labels t)
    (hok : ∀ a ∈ labels, ok a) (hinit : inv [] s)
    (hkeep : ∀ done t a u, ok a → inv done t → step t a u → inv (done ++ [a]) u) :
    inv labels t := by
  induction hrun with
  | nil => exact hinit
  | snoc _ hstep ih =>
      simp only [List.mem_append, List.mem_singleton] at hok
      exact hkeep _ _ _ _ (hok _ (Or.inr rfl)) (ih fun a ha => hok a (Or.inl ha)) hstep

/-- Two step relations have the same runs if they agree wherever a run of the second
one leads. -/
theorem trace_congr {step step' : σ → α → σ → Prop} {s t : σ} {labels : List α}
    (hsame : ∀ done u a v, Trace step' s done u → (step u a v ↔ step' u a v)) :
    Trace step s labels t ↔ Trace step' s labels t := by
  constructor
  · intro hrun
    induction hrun with
    | nil => exact .nil
    | snoc _ hstep ih => exact ih.snoc ((hsame _ _ _ _ ih).mp hstep)
  · intro hrun
    induction hrun with
    | nil => exact .nil
    | snoc hdone hstep ih => exact ih.snoc ((hsame _ _ _ _ hdone).mpr hstep)

/-- The steps of a function that may fail. -/
def Succeeds (f : σ → α → Except ε σ) (s : σ) (a : α) (t : σ) : Prop :=
  f s a = .ok t

/-- A successful fold is a run of its successful steps. -/
theorem trace_of_foldlM {f : σ → α → Except ε σ} {labels : List α} {s t : σ}
    (hrun : labels.foldlM f s = .ok t) : Trace (Succeeds f) s labels t := by
  induction labels using List.reverseRecOn generalizing t with
  | nil =>
      have hst : s = t := Except.ok.inj hrun
      exact hst ▸ Trace.nil
  | append_singleton done a ih =>
      rw [List.foldlM_append] at hrun
      cases hdone : done.foldlM f s with
      | error e =>
          rw [hdone] at hrun
          cases hrun
      | ok u =>
          rw [hdone] at hrun
          refine Trace.snoc (ih hdone) ?_
          cases hstep : f u a with
          | error e =>
              simp [bind, Except.bind, hstep] at hrun
          | ok v =>
              have hv : (Except.ok v : Except ε σ) = .ok t := by
                simpa [bind, Except.bind, hstep, pure, Except.pure] using hrun
              rw [Succeeds, hstep, hv]

/-- A sequence succeeds where both parts do. -/
theorem except_bind_eq_ok_iff {β γ δ : Type} {x : Except β γ} {f : γ → Except β δ} {b : δ} :
    (x >>= f) = .ok b ↔ ∃ a, x = .ok a ∧ f a = .ok b := by
  cases x with
  | error e => simp [bind, Except.bind]
  | ok a => simp [bind, Except.bind]

/-- A fold whose steps never fail does not fail. -/
theorem foldlM_ok {f : σ → α → Except ε σ} {labels : List α}
    (hok : ∀ a ∈ labels, ∀ s, ∃ t, f s a = .ok t) (s : σ) :
    ∃ t, labels.foldlM f s = .ok t := by
  induction labels generalizing s with
  | nil => exact ⟨s, rfl⟩
  | cons a labels ih =>
      obtain ⟨u, hu⟩ := hok a List.mem_cons_self s
      rw [List.foldlM_cons, hu]
      exact ih (fun b hb => hok b (List.mem_cons_of_mem a hb)) u

end Runs
end Library
end AllvmTools
