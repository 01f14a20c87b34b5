import AllvmTools.Library.Leaving
import AllvmTools.Library.LittleEndian

/-!
# Bounds-checked reading of a byte string

A cursor in a byte string, as the bytes in front of it and the bytes from it on,
with a flag that a read past the end clears.  A reader is a program on a cursor;
three notions say what it does, and all go through sequences of readers.

* `Reads m field a` — where `field` stands at the cursor, `m` returns `a` behind it.
* `Takes m P` — whatever `m` accepted stood at the cursor, and is as `P` says.
* `LooksAt m n` — `m` looks at the next `n` bytes and at nothing else.
-/

namespace AllvmTools
namespace Library

open LittleEndian Leaving Leaving.Program

/-- A cursor: the bytes behind it, the bytes ahead of it, and whether every read
so far stayed inside. -/
structure ByteCursor where
  before : List UInt8
  rest : List UInt8
  ok : Bool
deriving DecidableEq, Repr

namespace ByteCursor

/-- A cursor at the start. -/
def new (data : List UInt8) : ByteCursor :=
  ⟨[], data, true⟩

/-- The whole byte string. -/
def data (c : ByteCursor) : List UInt8 :=
  c.before ++ c.rest

/-- The number of bytes ahead. -/
def left (c : ByteCursor) : Nat :=
  if c.ok then c.rest.length else 0

/-- Every read stayed inside and nothing is ahead. -/
def eof (c : ByteCursor) : Bool :=
  c.ok && c.rest.isEmpty

/-- The next `n` bytes; nothing, and a cleared flag, where fewer are ahead. -/
def get (c : ByteCursor) (n : Nat) : Option (List UInt8) × ByteCursor :=
  if c.ok = true ∧ n ≤ c.rest.length then
    (some (c.rest.take n), ⟨c.before ++ c.rest.take n, c.rest.drop n, true⟩)
  else
    (none, { c with ok := false })

/-- The next number of `width` bytes; zero where fewer are ahead. -/
def getLE (c : ByteCursor) (width : Nat) : Nat × ByteCursor :=
  (((c.get width).1.map ofLE).getD 0, (c.get width).2)

/-- The cursor at a position; the flag is set again. -/
def setOffset (c : ByteCursor) (offset : Nat) : ByteCursor :=
  if c.data.length < offset then
    { c with ok := false }
  else
    ⟨c.data.take offset, c.data.drop offset, true⟩

/-- The cursor moved on. -/
def skip (c : ByteCursor) (n : Nat) : ByteCursor :=
  c.setOffset (c.before.length + n)

theorem get_append {before field rest : List UInt8} {n : Nat} (hn : field.length = n) :
    (ByteCursor.mk before (field ++ rest) true).get n =
      (some field, ⟨before ++ field, rest, true⟩) := by
  subst hn
  simp [get]

theorem getLE_append (before rest : List UInt8) (width n : Nat) :
    (ByteCursor.mk before (le width n ++ rest) true).getLE width =
      (n % 256 ^ width, ⟨before ++ le width n, rest, true⟩) := by
  simp [getLE, get_append, ofLE_le]

/-- A flag that is set after a read was set before it, and the field was inside. -/
theorem get_of_ok {c : ByteCursor} {n : Nat} (h : (c.get n).2.ok = true) :
    c.ok = true ∧ n ≤ c.rest.length ∧
      c.get n = (some (c.rest.take n), ⟨c.before ++ c.rest.take n, c.rest.drop n, true⟩) := by
  unfold get at h
  split at h
  · next hinside => exact ⟨hinside.1, hinside.2, if_pos hinside⟩
  · simp at h

@[simp] theorem data_get (c : ByteCursor) (n : Nat) : (c.get n).2.data = c.data := by
  unfold get data
  split <;> simp

@[simp] theorem data_getLE (c : ByteCursor) (width : Nat) : (c.getLE width).2.data = c.data :=
  data_get c width

end ByteCursor

/-! ## Readers -/

/-- A program on a cursor. -/
abbrev Reader (ε α : Type) : Type :=
  Program ε ByteCursor α

namespace Reader

variable {ε α β : Type}

/-- The next bytes, if they are there. -/
def bytes (n : Nat) : Reader ε (Option (List UInt8)) :=
  fun c => (.ok (c.get n).1, (c.get n).2)

/-- The next number. -/
def number (width : Nat) : Reader ε Nat :=
  fun c => (.ok (c.getLE width).1, (c.getLE width).2)

/-- Whether every read stayed inside. -/
def isOk : Reader ε Bool :=
  fun c => (.ok c.ok, c)

/-- How many bytes are ahead. -/
def left : Reader ε Nat :=
  fun c => (.ok c.left, c)

/-- Leaving unless a condition holds. -/
def ensure (cond : Bool) (e : ε) : Reader ε Unit :=
  if cond then pure () else leave e

/-- Where `field` stands at the cursor, `m` returns `a` behind it. -/
def Reads (m : Reader ε α) (field : List UInt8) (a : α) : Prop :=
  ∀ before rest, m ⟨before, field ++ rest, true⟩ = (.ok a, ⟨before ++ field, rest, true⟩)

theorem reads_pure (a : α) : Reads (pure a : Reader ε α) [] a := by
  intro before rest
  simp [pure, Program.pure]

theorem Reads.bind {m : Reader ε α} {f : α → Reader ε β} {field field' : List UInt8} {a : α}
    {b : β} (hm : Reads m field a) (hf : Reads (f a) field' b) :
    Reads (m >>= f) (field ++ field') b := by
  intro before rest
  rw [List.append_assoc, bind_of_ok (hm before (field' ++ rest)), hf, List.append_assoc]

/-- What was read is gone for what follows. -/
theorem Reads.bind_eq {m : Reader ε α} {field : List UInt8} {a : α} (hm : Reads m field a)
    (f : α → Reader ε β) (before rest : List UInt8) :
    (m >>= f) ⟨before, field ++ rest, true⟩ = f a ⟨before ++ field, rest, true⟩ :=
  bind_of_ok (hm before rest)

/-- What reads nothing may stand in front of any field. -/
theorem Reads.next {m : Reader ε α} {f : α → Reader ε β} {field : List UInt8} {a : α} {b : β}
    (hm : Reads m [] a) (hf : Reads (f a) field b) : Reads (m >>= f) field b :=
  hm.bind hf

theorem reads_bytes (field : List UInt8) {n : Nat} (hn : field.length = n) :
    Reads (bytes n : Reader ε _) field (some field) := by
  intro before rest
  simp [bytes, ByteCursor.get_append hn]

theorem reads_number {width n : Nat} (h : n < 256 ^ width) :
    Reads (number width : Reader ε _) (le width n) n := by
  intro before rest
  simp [number, ByteCursor.getLE_append, Nat.mod_eq_of_lt h]

theorem reads_isOk : Reads (isOk : Reader ε Bool) [] true := by
  intro before rest
  simp [isOk]

/-- The number of bytes ahead, for what follows. -/
theorem left_bind (f : Nat → Reader ε β) (c : ByteCursor) : (left >>= f) c = f c.left c :=
  rfl

/-- The flag, for what follows. -/
theorem isOk_bind (f : Bool → Reader ε β) (c : ByteCursor) : (isOk >>= f) c = f c.ok c :=
  rfl

theorem reads_ensure {cond : Bool} {e : ε} (h : cond = true) : Reads (ensure cond e) [] () := by
  subst h
  exact reads_pure ()

/-- A condition is asked for, and then the rest. -/
theorem ensure_bind_eq_ok_iff {cond : Bool} {e : ε} {f : Unit → Reader ε β} {c : ByteCursor}
    {b : β} :
    ((ensure cond e >>= f) c).1 = .ok b ↔ cond = true ∧ (f () c).1 = .ok b := by
  cases cond with
  | false =>
      have hleave : (ensure false e : Reader ε Unit) c = (.error e, c) := rfl
      rw [bind_of_error hleave]
      simp
  | true =>
      have hpure : (ensure true e : Reader ε Unit) c = (.ok (), c) := rfl
      rw [bind_of_ok hpure]
      simp

/-- What `m` accepted stood at the cursor and is as `P` says; a flag that is set
afterwards was set all along. -/
def Takes (m : Reader ε α) (P : α → List UInt8 → Prop) : Prop :=
  ∀ c a c', m c = (.ok a, c') → c'.ok = true →
    c.ok = true ∧ ∃ field, P a field ∧ c.rest = field ++ c'.rest ∧
      c' = ⟨c.before ++ field, c'.rest, true⟩

theorem takes_pure (a : α) : Takes (pure a : Reader ε α) fun b field => b = a ∧ field = [] := by
  rintro c b c' h hok
  cases h
  exact ⟨hok, [], ⟨rfl, rfl⟩, rfl, by simp [← hok]⟩

/-- What the first of two readers took goes in front of what the second takes. -/
theorem Takes.bind {m : Reader ε α} {f : α → Reader ε β} {P : α → List UInt8 → Prop}
    {Q : β → List UInt8 → Prop} (hm : Takes m P)
    (hf : ∀ a, Takes (f a) fun b field' => ∀ field, P a field → Q b (field ++ field')) :
    Takes (m >>= f) Q := by
  intro c b c'' h hok
  obtain ⟨a, c', hma, hfb⟩ := bind_eq_ok_iff.mp h
  obtain ⟨hok', field₂, hQ, hrest₂, hc''⟩ := hf a c' b c'' hfb hok
  obtain ⟨hok₁, field₁, hP, hrest₁, hc'⟩ := hm c a c' hma hok'
  refine ⟨hok₁, field₁ ++ field₂, hQ field₁ hP, ?_, ?_⟩
  · rw [hrest₁, hrest₂, List.append_assoc]
  · rw [hc'', hc']
    simp

theorem Takes.weaken {m : Reader ε α} {P Q : α → List UInt8 → Prop} (hm : Takes m P)
    (h : ∀ a field, P a field → Q a field) : Takes m Q := by
  intro c a c' hma hok
  obtain ⟨hok₁, field, hP, hrest, hc'⟩ := hm c a c' hma hok
  exact ⟨hok₁, field, h a field hP, hrest, hc'⟩

theorem takes_leave (e : ε) (P : α → List UInt8 → Prop) : Takes (leave e : Reader ε α) P := by
  intro c a c' h
  cases h

theorem takes_bytes (n : Nat) :
    Takes (bytes n : Reader ε _) fun a field => a = some field ∧ field.length = n := by
  intro c a c' h hok
  cases h
  obtain ⟨hok₁, hle, hget⟩ := ByteCursor.get_of_ok hok
  rw [hget]
  exact ⟨hok₁, c.rest.take n, ⟨rfl, List.length_take_of_le hle⟩, by simp, rfl⟩

/-- Bytes that were there leave the flag set. -/
theorem ok_of_bytes {c c' : ByteCursor} {n : Nat} {field : List UInt8}
    (h : (bytes n : Reader ε _) c = (.ok (some field), c')) : c'.ok = true := by
  unfold bytes ByteCursor.get at h
  split at h <;> cases h
  rfl

theorem takes_number (width : Nat) :
    Takes (number width : Reader ε _) fun n field => n < 256 ^ width ∧ field = le width n := by
  intro c n c' h hok
  cases h
  obtain ⟨hok₁, hle, hget⟩ := ByteCursor.get_of_ok hok
  have hlength := List.length_take_of_le hle
  have hlt := ofLE_lt (c.rest.take width)
  rw [hlength] at hlt
  have hvalue : (c.getLE width).1 = ofLE (c.rest.take width) := by
    simp [ByteCursor.getLE, hget]
  refine ⟨hok₁, c.rest.take width, ?_, by simp [ByteCursor.getLE, hget],
    by simp [ByteCursor.getLE, hget]⟩
  rw [hvalue]
  exact ⟨hlt, (le_ofLE hlength).symm⟩

theorem takes_isOk : Takes (isOk : Reader ε Bool) fun ok field => ok = true ∧ field = [] := by
  intro c ok c' h hok
  cases h
  exact ⟨hok, [], ⟨hok, rfl⟩, rfl, by simp [← hok]⟩

theorem takes_ensure (cond : Bool) (e : ε) :
    Takes (ensure cond e) fun _ field => cond = true ∧ field = [] := by
  unfold ensure
  split
  · next h => exact (takes_pure ()).weaken fun _ _ hfield => ⟨h, hfield.2⟩
  · exact takes_leave e _

/-- Whenever `m` returns, every read so far stayed inside. -/
def EndsOk (m : Reader ε α) : Prop :=
  ∀ c a c', m c = (.ok a, c') → c'.ok = true

theorem EndsOk.bind {m : Reader ε α} {f : α → Reader ε β} (hf : ∀ a, EndsOk (f a)) :
    EndsOk (m >>= f) := by
  intro c b c'' h
  obtain ⟨a, c', -, hfb⟩ := bind_eq_ok_iff.mp h
  exact hf a c' b c'' hfb

/-- A reader that checks the flag last. -/
theorem endsOk_check (e : ε) (a : α) :
    EndsOk (do
      let ok ← isOk
      ensure ok e
      return a : Reader ε α) := by
  intro c b c' h
  obtain ⟨ok, c₁, hok, hrest⟩ := bind_eq_ok_iff.mp h
  obtain ⟨_, c₂, hensure, hpure⟩ := bind_eq_ok_iff.mp hrest
  cases hok
  cases hpure
  unfold ensure at hensure
  split at hensure
  · next hok =>
    cases hensure
    exact hok
  · cases hensure

/-! ## Readers of a fixed length -/

/-- Where `field` stands at the cursor, `m` leaves with `e`. -/
def Fails (m : Reader ε α) (field : List UInt8) (e : ε) : Prop :=
  ∀ before rest, (m ⟨before, field ++ rest, true⟩).1 = .error e

/-- `m` looks at the next `n` bytes and at nothing else: it returns a value behind
them, or leaves. -/
def LooksAt (m : Reader ε α) (n : Nat) : Prop :=
  ∀ field : List UInt8, field.length = n → (∃ a, Reads m field a) ∨ ∃ e, Fails m field e

theorem fails_leave (e : ε) (field : List UInt8) : Fails (leave e : Reader ε α) field e :=
  fun _ _ => rfl

/-- Leaving early is leaving the whole. -/
theorem Fails.bind {m : Reader ε α} {field : List UInt8} {e : ε} (hm : Fails m field e)
    (f : α → Reader ε β) (field' : List UInt8) : Fails (m >>= f) (field ++ field') e := by
  intro before rest
  rw [List.append_assoc]
  obtain ⟨t, ht⟩ : ∃ t, m ⟨before, field ++ (field' ++ rest), true⟩ = (.error e, t) :=
    ⟨_, Prod.ext (hm before (field' ++ rest)) rfl⟩
  rw [bind_of_error ht]

/-- Leaving behind what was read. -/
theorem Reads.fails {m : Reader ε α} {f : α → Reader ε β} {field field' : List UInt8} {a : α}
    {e : ε} (hm : Reads m field a) (hf : Fails (f a) field' e) :
    Fails (m >>= f) (field ++ field') e := by
  intro before rest
  rw [List.append_assoc, hm.bind_eq, hf]

theorem looksAt_pure (a : α) : LooksAt (pure a : Reader ε α) 0 := by
  intro field hfield
  rw [List.length_eq_zero_iff.mp hfield]
  exact Or.inl ⟨a, reads_pure a⟩

theorem looksAt_leave (e : ε) (n : Nat) : LooksAt (leave e : Reader ε α) n :=
  fun field _ => Or.inr ⟨e, fails_leave e field⟩

/-- The lengths of two readers add up. -/
theorem LooksAt.bind {m : Reader ε α} {f : α → Reader ε β} {n k : Nat} (hm : LooksAt m n)
    (hf : ∀ a, LooksAt (f a) k) : LooksAt (m >>= f) (n + k) := by
  intro field hfield
  have hfirst : (field.take n).length = n := by
    rw [List.length_take]
    omega
  have hsecond : (field.drop n).length = k := by
    rw [List.length_drop]
    omega
  rw [← List.take_append_drop n field]
  rcases hm _ hfirst with ⟨a, ha⟩ | ⟨e, he⟩
  · rcases hf a _ hsecond with ⟨b, hb⟩ | ⟨e, he⟩
    · exact Or.inl ⟨b, ha.bind hb⟩
    · exact Or.inr ⟨e, ha.fails he⟩
  · exact Or.inr ⟨e, he.bind f _⟩

theorem looksAt_bytes (n : Nat) : LooksAt (bytes n : Reader ε _) n :=
  fun field hfield => Or.inl ⟨some field, reads_bytes field hfield⟩

theorem looksAt_number (width : Nat) : LooksAt (number width : Reader ε _) width := by
  intro field hfield
  refine Or.inl ⟨ofLE field, ?_⟩
  have hlt := ofLE_lt field
  rw [hfield] at hlt
  have hreads := reads_number (ε := ε) hlt
  rwa [le_ofLE hfield] at hreads

theorem looksAt_isOk : LooksAt (isOk : Reader ε Bool) 0 := by
  intro field hfield
  rw [List.length_eq_zero_iff.mp hfield]
  exact Or.inl ⟨true, reads_isOk⟩

theorem looksAt_ensure (cond : Bool) (e : ε) : LooksAt (ensure cond e) 0 := by
  unfold ensure
  split
  · exact looksAt_pure ()
  · exact looksAt_leave e 0

/-- What such a reader does with what stands at the cursor, it does with a copy of the
bytes it looks at. -/
theorem LooksAt.copy {m : Reader ε α} {n : Nat} (hm : LooksAt m n) {rest : List UInt8}
    (hn : n ≤ rest.length) (before : List UInt8) :
    (∃ a, m (.new (rest.take n)) = (.ok a, ⟨rest.take n, [], true⟩) ∧
      m ⟨before, rest, true⟩ = (.ok a, ⟨before ++ rest.take n, rest.drop n, true⟩)) ∨
    ∃ e t t', m (.new (rest.take n)) = (.error e, t) ∧ m ⟨before, rest, true⟩ = (.error e, t') := by
  have hrest : rest = rest.take n ++ rest.drop n := (List.take_append_drop n rest).symm
  rcases hm (rest.take n) (List.length_take_of_le hn) with ⟨a, ha⟩ | ⟨e, he⟩
  · have hcopy := ha [] []
    have hwhole := ha before (rest.drop n)
    rw [List.append_nil, List.nil_append] at hcopy
    rw [← hrest] at hwhole
    exact Or.inl ⟨a, hcopy, hwhole⟩
  · have hcopy := he [] []
    have hwhole := he before (rest.drop n)
    rw [List.append_nil] at hcopy
    rw [← hrest] at hwhole
    exact Or.inr ⟨e, _, _, Prod.ext hcopy rfl, Prod.ext hwhole rfl⟩

end Reader
end Library
end AllvmTools
