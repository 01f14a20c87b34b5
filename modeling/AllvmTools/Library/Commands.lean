import Mathlib.Tactic.Basic

/-!
# Commands that may fail

A command takes surroundings and a state to a result or an error return, and to
the state it leaves either way.  Five kinds of facts about commands are built
up along `pure` and `>>=`:

* `Achieves` — in given surroundings the command returns a result with a
  postcondition;
* `Yields` — where it returns a result, the postcondition holds;
* `Keeps` — whatever the surroundings do, the command keeps an invariant, also
  where it returns an error;
* `Notices` — the command returns an error exactly when one of the operations it
  would perform in calm surroundings fails;
* `Takes` — how many operations the command takes where it returns a result.
-/

namespace AllvmTools
namespace Library
namespace Commands

/-- A command over surroundings `E` and states `σ`; `none` is its error return. -/
def Command (E σ α : Type) : Type :=
  E → σ → Option α × σ

namespace Command

variable {E σ α β : Type}

protected def pure (a : α) : Command E σ α :=
  fun _ s => (some a, s)

protected def bind (m : Command E σ α) (f : α → Command E σ β) : Command E σ β :=
  fun env s =>
    match m env s with
    | (none, t) => (none, t)
    | (some a, t) => f a env t

instance : Monad (Command E σ) where
  pure := Command.pure
  bind := Command.bind

/-- An error return. -/
def fail : Command E σ α :=
  fun _ s => (none, s)

/-- A command that returned an error ends the sequence. -/
theorem bind_of_none {m : Command E σ α} {f : α → Command E σ β} {env : E} {s t : σ}
    (hm : m env s = (none, t)) : (m >>= f) env s = (none, t) := by
  show Command.bind m f env s = (none, t)
  simp only [Command.bind, hm]

/-- A command that returned a result hands it on. -/
theorem bind_of_some {m : Command E σ α} {f : α → Command E σ β} {env : E} {s t : σ} {a : α}
    (hm : m env s = (some a, t)) : (m >>= f) env s = f a env t := by
  show Command.bind m f env s = f a env t
  simp only [Command.bind, hm]

/-- A sequence succeeds where both parts do. -/
theorem bind_eq_some_iff {m : Command E σ α} {f : α → Command E σ β} {env : E} {s u : σ}
    {b : β} :
    (m >>= f) env s = (some b, u) ↔
      ∃ a t, m env s = (some a, t) ∧ f a env t = (some b, u) := by
  rcases hm : m env s with ⟨_ | a, t⟩
  · rw [bind_of_none hm]
    simp
  · rw [bind_of_some hm]
    constructor
    · exact fun hf => ⟨a, t, rfl, hf⟩
    · rintro ⟨_, _, hat, hf⟩
      cases hat
      exact hf

end Command

open Command

variable {E σ α β : Type}

/-! ## Success -/

/-- From every state with `pre`, the command returns a result and `post` holds. -/
def Achieves (env : E) (pre : σ → Prop) (m : Command E σ α) (post : α → σ → Prop) : Prop :=
  ∀ s, pre s → ∃ a t, m env s = (some a, t) ∧ post a t

namespace Achieves

variable {env : E} {pre : σ → Prop} {m : Command E σ α} {f : α → Command E σ β}

theorem pure {post : α → σ → Prop} {a : α} (h : ∀ s, pre s → post a s) :
    Achieves env pre (pure a : Command E σ α) post :=
  fun s hs => ⟨a, s, rfl, h s hs⟩

/-- Sequences: what the first command achieves is what the second one needs. -/
theorem bind {mid : α → σ → Prop} {post : β → σ → Prop} (hm : Achieves env pre m mid)
    (hf : ∀ a, Achieves env (mid a) (f a) post) : Achieves env pre (m >>= f) post := by
  intro s hs
  obtain ⟨a, t, hrun, hmid⟩ := hm s hs
  rw [bind_of_some hrun]
  exact hf a t hmid

theorem weaken {post post' : α → σ → Prop} (hm : Achieves env pre m post)
    (h : ∀ a t, post a t → post' a t) : Achieves env pre m post' := by
  intro s hs
  obtain ⟨a, t, hrun, hpost⟩ := hm s hs
  exact ⟨a, t, hrun, h a t hpost⟩

/-- A command whose result is fixed is followed by the rest at that result. -/
theorem bind_value {a : α} {mid : σ → Prop} {post : β → σ → Prop}
    (hm : Achieves env pre m fun a' t => a' = a ∧ mid t)
    (hf : Achieves env mid (f a) post) : Achieves env pre (m >>= f) post := by
  apply bind hm
  rintro a' t ⟨rfl, hmid⟩
  exact hf t hmid

/-- A command without a result is followed by the rest. -/
theorem next {m : Command E σ Unit} {f : Unit → Command E σ β} {mid : σ → Prop}
    {post : β → σ → Prop} (hm : Achieves env pre m fun _ => mid)
    (hf : Achieves env mid (f ()) post) : Achieves env pre (m >>= f) post :=
  bind hm fun _ => hf

end Achieves

/-! ## Results, where there are any -/

/-- From every state with `pre`, `post` holds where the command returns a result. -/
def Yields (env : E) (pre : σ → Prop) (m : Command E σ α) (post : α → σ → Prop) : Prop :=
  ∀ s, pre s → ∀ a t, m env s = (some a, t) → post a t

namespace Yields

variable {env : E} {pre : σ → Prop} {m : Command E σ α} {f : α → Command E σ β}

theorem pure {post : α → σ → Prop} {a : α} (h : ∀ s, pre s → post a s) :
    Yields env pre (pure a : Command E σ α) post := by
  intro s hs _ t hrun
  cases hrun
  exact h s hs

theorem fail {post : α → σ → Prop} : Yields env pre (fail : Command E σ α) post := by
  intro _ _ _ _ hrun
  cases hrun

theorem bind {mid : α → σ → Prop} {post : β → σ → Prop} (hm : Yields env pre m mid)
    (hf : ∀ a, Yields env (mid a) (f a) post) : Yields env pre (m >>= f) post := by
  intro s hs b u hrun
  obtain ⟨a, t, hfirst, hrest⟩ := bind_eq_some_iff.mp hrun
  exact hf a t (hm s hs a t hfirst) b u hrest

theorem weaken {post post' : α → σ → Prop} (hm : Yields env pre m post)
    (h : ∀ a t, post a t → post' a t) : Yields env pre m post' :=
  fun s hs a t hrun => h a t (hm s hs a t hrun)

/-- A command whose result is fixed is followed by the rest at that result. -/
theorem bind_value {a : α} {mid : σ → Prop} {post : β → σ → Prop}
    (hm : Yields env pre m fun a' t => a' = a ∧ mid t)
    (hf : Yields env mid (f a) post) : Yields env pre (m >>= f) post := by
  refine bind hm fun a' => ?_
  rintro t ⟨rfl, hmid⟩
  exact hf t hmid

/-- A command without a result is followed by the rest. -/
theorem next {m : Command E σ Unit} {f : Unit → Command E σ β} {mid : σ → Prop}
    {post : β → σ → Prop} (hm : Yields env pre m fun _ => mid)
    (hf : Yields env mid (f ()) post) : Yields env pre (m >>= f) post :=
  bind hm fun _ => hf

/-- What is known of a result alone is known to the rest. -/
theorem bind_result {p : α → Prop} {post : β → σ → Prop} (hm : Yields env pre m fun a _ => p a)
    (hf : ∀ a, p a → Yields env (fun _ => True) (f a) post) : Yields env pre (m >>= f) post :=
  bind hm fun a s hp => hf a hp s trivial

/-- Nothing is asked of a result. -/
theorem any : Yields env pre m fun _ _ => True :=
  fun _ _ _ _ _ => trivial

end Yields

/-! ## Invariants -/

/-- The command keeps `inv`, whatever the surroundings do. -/
def Keeps (inv : σ → Prop) (m : Command E σ α) : Prop :=
  ∀ env s, inv s → inv (m env s).2

namespace Keeps

variable {inv : σ → Prop} {m : Command E σ α} {f : α → Command E σ β}

theorem pure (a : α) : Keeps inv (pure a : Command E σ α) :=
  fun _ _ hs => hs

theorem fail : Keeps inv (fail : Command E σ α) :=
  fun _ _ hs => hs

theorem bind (hm : Keeps inv m) (hf : ∀ a, Keeps inv (f a)) : Keeps inv (m >>= f) := by
  intro env s hs
  have hmid : inv (m env s).2 := hm env s hs
  rcases hrun : m env s with ⟨_ | a, t⟩
  · rw [bind_of_none hrun]
    rwa [hrun] at hmid
  · rw [bind_of_some hrun]
    rw [hrun] at hmid
    exact hf a env t hmid

end Keeps

/-! ## Failing operations -/

/-- Where the operations are counted, and which ones fail. -/
structure Clock (E σ : Type) where
  count : σ → Nat
  fails : E → Nat → Bool

namespace Clock

variable (clock : Clock E σ)

/-- An operation fails from the one state on and before the other. -/
def FailsBetween (env : E) (s t : σ) : Prop :=
  ∃ i, clock.count s ≤ i ∧ i < clock.count t ∧ clock.fails env i = true

theorem failsBetween_split {env : E} {s t u : σ} (hst : clock.count s ≤ clock.count t)
    (htu : clock.count t ≤ clock.count u) :
    clock.FailsBetween env s u ↔ clock.FailsBetween env s t ∨ clock.FailsBetween env t u := by
  constructor
  · rintro ⟨i, hs, hu, hfails⟩
    by_cases hi : i < clock.count t
    · exact Or.inl ⟨i, hs, hi, hfails⟩
    · exact Or.inr ⟨i, by omega, hu, hfails⟩
  · rintro (⟨i, hs, ht, hfails⟩ | ⟨i, ht, hu, hfails⟩)
    · exact ⟨i, hs, by omega, hfails⟩
    · exact ⟨i, by omega, hu, hfails⟩

end Clock

/-- Compared with the run in calm surroundings: if none of its operations fails
the run is the same, and otherwise it ends with an error. -/
structure Notices (clock : Clock E σ) (calm : E) (m : Command E σ α) : Prop where
  counts : ∀ s, clock.count s ≤ clock.count (m calm s).2
  same : ∀ env s, ¬ clock.FailsBetween env s (m calm s).2 → m env s = m calm s
  stops : ∀ env s, clock.FailsBetween env s (m calm s).2 → (m env s).1 = none

namespace Notices

variable {clock : Clock E σ} {calm : E} {m : Command E σ α} {f : α → Command E σ β}

/-- A command without operations, whatever it returns. -/
theorem of_no_operation (h : ∀ env s, m env s = m calm s)
    (hcount : ∀ s, clock.count (m calm s).2 = clock.count s) : Notices clock calm m where
  counts s := Nat.le_of_eq (hcount s).symm
  same env s _ := h env s
  stops env s := by
    rintro ⟨i, hge, hlt, -⟩
    rw [hcount s] at hlt
    omega

theorem pure (a : α) : Notices clock calm (pure a : Command E σ α) :=
  of_no_operation (fun _ _ => rfl) fun _ => rfl

theorem fail : Notices clock calm (fail : Command E σ α) :=
  of_no_operation (fun _ _ => rfl) fun _ => rfl

theorem bind (hm : Notices clock calm m) (hf : ∀ a, Notices clock calm (f a)) :
    Notices clock calm (m >>= f) := by
  have hsplit : ∀ s a t, m calm s = (some a, t) →
      clock.count s ≤ clock.count t ∧ clock.count t ≤ clock.count (f a calm t).2 := by
    intro s a t hrun
    have hcounts := hm.counts s
    rw [hrun] at hcounts
    exact ⟨hcounts, (hf a).counts t⟩
  constructor
  · intro s
    rcases hrun : m calm s with ⟨_ | a, t⟩
    · rw [bind_of_none hrun]
      simpa only [hrun] using hm.counts s
    · rw [bind_of_some hrun]
      exact Nat.le_trans (hsplit s a t hrun).1 (hsplit s a t hrun).2
  · intro env s
    have hsame := hm.same env s
    rcases hrun : m calm s with ⟨_ | a, t⟩
    · rw [bind_of_none hrun]
      rw [hrun] at hsame
      exact fun hcalm => bind_of_none (hsame hcalm)
    · rw [bind_of_some hrun, clock.failsBetween_split (hsplit s a t hrun).1 (hsplit s a t hrun).2]
      rw [hrun] at hsame
      intro hcalm
      rw [bind_of_some (hsame fun h => hcalm (Or.inl h))]
      exact (hf a).same env t fun h => hcalm (Or.inr h)
  · intro env s
    have hsame := hm.same env s
    have hstops := hm.stops env s
    -- an error of the first command is the error of the sequence
    have herror : (m env s).1 = none → ((m >>= f) env s).1 = none := by
      intro hnone
      rw [bind_of_none (show m env s = (none, (m env s).2) from Prod.ext hnone rfl)]
    rcases hrun : m calm s with ⟨_ | a, t⟩
    · rw [bind_of_none hrun]
      rw [hrun] at hstops
      exact fun hfails => herror (hstops hfails)
    · rw [bind_of_some hrun, clock.failsBetween_split (hsplit s a t hrun).1 (hsplit s a t hrun).2]
      rw [hrun] at hsame hstops
      intro hfails
      by_cases hfirst : clock.FailsBetween env s t
      · exact herror (hstops hfirst)
      · rw [bind_of_some (hsame hfirst)]
        exact (hf a).stops env t (hfails.resolve_left hfirst)

end Notices

/-! ## Counting operations -/

/-- Where it returns a result, the command takes `n` operations. -/
def Takes (clock : Clock E σ) (env : E) (m : Command E σ α) (n : Nat) : Prop :=
  ∀ s a t, m env s = (some a, t) → clock.count t = clock.count s + n

/-- The command can only return `a`. -/
def ReturnsOnly (env : E) (m : Command E σ α) (a : α) : Prop :=
  ∀ s a' t, m env s = (some a', t) → a' = a

namespace Takes

variable {clock : Clock E σ} {env : E} {m : Command E σ α} {f : α → Command E σ β} {n k : Nat}

theorem pure (a : α) : Takes clock env (pure a : Command E σ α) 0 := by
  intro s _ t hrun
  cases hrun
  rfl

theorem bind (hm : Takes clock env m n) (hf : ∀ a, Takes clock env (f a) k) :
    Takes clock env (m >>= f) (n + k) := by
  intro s b u hrun
  obtain ⟨a, t, hfirst, hrest⟩ := bind_eq_some_iff.mp hrun
  rw [hf a t b u hrest, hm s a t hfirst, Nat.add_assoc]

/-- What follows a command that can only return `a` is counted at `a`. -/
theorem bind_value {a : α} (hm : Takes clock env m n) (ha : ReturnsOnly env m a)
    (hf : Takes clock env (f a) k) : Takes clock env (m >>= f) (n + k) := by
  intro s b u hrun
  obtain ⟨a', t, hfirst, hrest⟩ := bind_eq_some_iff.mp hrun
  obtain rfl := ha s a' t hfirst
  rw [hf t b u hrest, hm s _ t hfirst, Nat.add_assoc]

end Takes

end Commands
end Library
end AllvmTools
