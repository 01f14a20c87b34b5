import Mathlib.Tactic.Common

/-!
# Machines that answer calls

A machine answers a call and goes to another state.  One machine refines another one
if its states stand for states of the other, and it answers alike.

* `answers_refine` — the answers of a whole run are those of the abstract machine.
* `answers_simulate` — so they are where the states are only related.
-/

namespace AllvmTools
namespace Library
namespace Machines

variable {σ τ α ρ : Type*}

/-- The answers to a list of calls, and the state after them. -/
def answers (step : σ → α → ρ × σ) : σ → List α → List ρ × σ
  | s, [] => ([], s)
  | s, a :: calls =>
      let rest := answers step (step s a).2 calls
      ((step s a).1 :: rest.1, rest.2)

theorem answers_cons (step : σ → α → ρ × σ) (s : σ) (a : α) (calls : List α) :
    answers step s (a :: calls) =
      ((step s a).1 :: (answers step (step s a).2 calls).1,
        (answers step (step s a).2 calls).2) :=
  rfl

theorem answers_append (step : σ → α → ρ × σ) (s : σ) (calls calls' : List α) :
    (answers step s (calls ++ calls')).2 = (answers step (answers step s calls).2 calls').2 := by
  induction calls generalizing s with
  | nil => rfl
  | cons a calls ih => exact ih (step s a).2

/-- One answer of the concrete machine, and the state it goes to. -/
structure Refines (inv : σ → Prop) (abs : σ → τ) (step : σ → α → ρ × σ) (model : τ → α → ρ × τ)
    (s : σ) (a : α) : Prop where
  answer : (step s a).1 = (model (abs s) a).1
  next : abs (step s a).2 = (model (abs s) a).2
  inv : inv (step s a).2

/-- **Refinement over runs**: where every call is answered alike, so is every run. -/
theorem answers_refine {inv : σ → Prop} {abs : σ → τ} {step : σ → α → ρ × σ}
    {model : τ → α → ρ × τ} (hstep : ∀ s a, inv s → Refines inv abs step model s a) {s : σ}
    (hs : inv s) (calls : List α) :
    (answers step s calls).1 = (answers model (abs s) calls).1 ∧
      abs (answers step s calls).2 = (answers model (abs s) calls).2 ∧
      inv (answers step s calls).2 := by
  induction calls generalizing s with
  | nil => exact ⟨rfl, rfl, hs⟩
  | cons a calls ih =>
      obtain ⟨hanswer, hnext, hinv⟩ := hstep s a hs
      obtain ⟨hanswers, hend, hinv'⟩ := ih hinv
      rw [hnext] at hanswers hend
      rw [answers_cons, answers_cons, hanswer, hanswers]
      exact ⟨rfl, hend, hinv'⟩

/-- **Simulation over runs**: where every call is answered alike and leads to states that
stand for each other, so is every run.  The relation may count the calls that are left. -/
theorem answers_simulate {sim : Nat → σ → τ → Prop} {step : σ → α → ρ × σ}
    {model : τ → α → ρ × τ}
    (hstep : ∀ n s t a, sim (n + 1) s t →
      (step s a).1 = (model t a).1 ∧ sim n (step s a).2 (model t a).2) {s : σ} {t : τ}
    (calls : List α) (h : sim calls.length s t) :
    (answers step s calls).1 = (answers model t calls).1 ∧
      sim 0 (answers step s calls).2 (answers model t calls).2 := by
  induction calls generalizing s t with
  | nil => exact ⟨rfl, h⟩
  | cons a calls ih =>
      obtain ⟨hanswer, hnext⟩ := hstep _ s t a h
      obtain ⟨hanswers, hend⟩ := ih hnext
      rw [answers_cons, answers_cons, hanswer, hanswers]
      exact ⟨rfl, hend⟩

/-- What every call keeps, every run keeps. -/
theorem answers_invariant {inv : σ → Prop} {step : σ → α → ρ × σ} {calls : List α}
    (hkeep : ∀ s, ∀ a ∈ calls, inv s → inv (step s a).2) {s : σ} (hs : inv s) :
    inv (answers step s calls).2 := by
  induction calls generalizing s with
  | nil => exact hs
  | cons a calls ih =>
      exact ih (fun s b hb => hkeep s b (List.mem_cons_of_mem a hb))
        (hkeep s a List.mem_cons_self hs)

/-- What holds of every answer, as long as an invariant is kept. -/
theorem answers_forall₂ {inv : σ → Prop} {ok : α → ρ → Prop} {step : σ → α → ρ × σ}
    {calls : List α} (hstep : ∀ s, ∀ a ∈ calls, inv s → ok a (step s a).1 ∧ inv (step s a).2)
    {s : σ} (hs : inv s) : List.Forall₂ ok calls (answers step s calls).1 := by
  induction calls generalizing s with
  | nil => exact .nil
  | cons a calls ih =>
      obtain ⟨hok, hinv⟩ := hstep s a List.mem_cons_self hs
      exact .cons hok (ih (fun s b hb => hstep s b (List.mem_cons_of_mem a hb)) hinv)

end Machines
end Library
end AllvmTools
