import Mathlib.Tactic.Basic

/-!
# Programs that leave early

A program works on a state and returns a result, or leaves early with a reason;
the state it reached stays either way, for whoever cleans up.

* `Ensures` — what holds where the program returns a result;
* `LeavesOnly` — the reasons with which it may leave early.
-/

namespace AllvmTools
namespace Library
namespace Leaving

/-- A program over states `σ`; `ε` are the reasons for leaving early. -/
def Program (ε σ α : Type) : Type :=
  σ → Except ε α × σ

namespace Program

variable {ε σ α β : Type}

protected def pure (a : α) : Program ε σ α :=
  fun s => (.ok a, s)

protected def bind (m : Program ε σ α) (f : α → Program ε σ β) : Program ε σ β :=
  fun s =>
    match m s with
    | (.error e, t) => (.error e, t)
    | (.ok a, t) => f a t

instance : Monad (Program ε σ) where
  pure := Program.pure
  bind := Program.bind

def leave (e : ε) : Program ε σ α :=
  fun s => (.error e, s)

/-- The value, or leaving where there is none. -/
def orLeave (e : ε) (x : Option α) : Program ε σ α :=
  match x with
  | none => leave e
  | some a => pure a

/-- After a result the rest follows. -/
theorem bind_of_ok {m : Program ε σ α} {f : α → Program ε σ β} {s t : σ} {a : α}
    (hm : m s = (.ok a, t)) : (m >>= f) s = f a t := by
  show Program.bind m f s = f a t
  simp only [Program.bind, hm]

/-- After leaving nothing follows. -/
theorem bind_of_error {m : Program ε σ α} {f : α → Program ε σ β} {s t : σ} {e : ε}
    (hm : m s = (.error e, t)) : (m >>= f) s = (.error e, t) := by
  show Program.bind m f s = (.error e, t)
  simp only [Program.bind, hm]

/-- A sequence returns a result where both parts do. -/
theorem bind_eq_ok_iff {m : Program ε σ α} {f : α → Program ε σ β} {s u : σ} {b : β} :
    (m >>= f) s = (.ok b, u) ↔ ∃ a t, m s = (.ok a, t) ∧ f a t = (.ok b, u) := by
  show Program.bind m f s = (.ok b, u) ↔ _
  unfold Program.bind
  rcases hm : m s with ⟨e | a, t⟩
  · simp
  · constructor
    · exact fun hf => ⟨a, t, rfl, hf⟩
    · rintro ⟨_, _, hat, hf⟩
      cases hat
      exact hf

/-- A sequence leaves early where one of its parts does. -/
theorem bind_eq_error_iff {m : Program ε σ α} {f : α → Program ε σ β} {s u : σ} {e : ε} :
    (m >>= f) s = (.error e, u) ↔
      m s = (.error e, u) ∨ ∃ a t, m s = (.ok a, t) ∧ f a t = (.error e, u) := by
  show Program.bind m f s = (.error e, u) ↔ _
  unfold Program.bind
  rcases hm : m s with ⟨e' | a, t⟩
  · simp
  · constructor
    · exact fun hf => Or.inr ⟨a, t, rfl, hf⟩
    · rintro (herror | ⟨_, _, hat, hf⟩)
      · cases herror
      · cases hat
        exact hf

theorem orLeave_eq_ok {e : ε} {x : Option α} {s t : σ} {a : α}
    (h : orLeave e x s = (.ok a, t)) : x = some a ∧ t = s := by
  cases x with
  | none => cases h
  | some b =>
      cases h
      exact ⟨rfl, rfl⟩

end Program

open Program

variable {ε σ α β : Type}

/-! ## Postconditions -/

/-- Started where `pre` holds, a result comes with `post`. -/
def Ensures (pre : σ → Prop) (m : Program ε σ α) (post : α → σ → Prop) : Prop :=
  ∀ s a t, pre s → m s = (.ok a, t) → post a t

namespace Ensures

variable {pre : σ → Prop} {m : Program ε σ α} {f : α → Program ε σ β}

theorem pure {post : α → σ → Prop} {a : α} (h : ∀ s, pre s → post a s) :
    Ensures pre (pure a : Program ε σ α) post := by
  intro s _ _ hs hrun
  cases hrun
  exact h s hs

theorem leave {e : ε} {post : α → σ → Prop} : Ensures pre (leave e) post := by
  intro s _ _ _ hrun
  cases hrun

theorem bind {mid : α → σ → Prop} {post : β → σ → Prop} (hm : Ensures pre m mid)
    (hf : ∀ a, Ensures (mid a) (f a) post) : Ensures pre (m >>= f) post := by
  intro s b u hs hrun
  obtain ⟨a, t, hfirst, hrest⟩ := bind_eq_ok_iff.mp hrun
  exact hf a t b u (hm s a t hs hfirst) hrest

/-- What follows a value that has to be there. -/
theorem orLeave {e : ε} {x : Option α} {post : β → σ → Prop}
    (hf : ∀ a, x = some a → Ensures pre (f a) post) :
    Ensures pre (orLeave e x >>= f) post := by
  intro s b u hs hrun
  obtain ⟨a, t, hfirst, hrest⟩ := bind_eq_ok_iff.mp hrun
  obtain ⟨ha, rfl⟩ := orLeave_eq_ok hfirst
  exact hf a ha t b u hs hrest

end Ensures

/-! ## Reasons for leaving -/

/-- Every run that leaves early does so with a reason of this kind. -/
def LeavesOnly (kind : ε → Prop) (m : Program ε σ α) : Prop :=
  ∀ s e t, m s = (.error e, t) → kind e

namespace LeavesOnly

variable {kind : ε → Prop} {m : Program ε σ α} {f : α → Program ε σ β}

theorem pure (a : α) : LeavesOnly kind (pure a : Program ε σ α) := by
  intro s e t hrun
  cases hrun

theorem leave (e : ε) : LeavesOnly (· = e) (leave e : Program ε σ α) := by
  intro s e' t hrun
  cases hrun
  rfl

theorem orLeave (e : ε) (x : Option α) :
    LeavesOnly (· = e) (orLeave e x : Program ε σ α) := by
  cases x with
  | none => exact leave e
  | some a => exact pure a

theorem bind (hm : LeavesOnly kind m) (hf : ∀ a, LeavesOnly kind (f a)) :
    LeavesOnly kind (m >>= f) := by
  intro s e u hrun
  rcases bind_eq_error_iff.mp hrun with hfirst | ⟨a, t, -, hrest⟩
  · exact hm s e u hfirst
  · exact hf a t e u hrest

end LeavesOnly

end Leaving
end Library
end AllvmTools
