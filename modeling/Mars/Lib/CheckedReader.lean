import Mars.Lib.ByteReader

/-!
# Readers that may panic

A `CheckedReader` has no outcome (`none`) when an index is out of bounds, an operation on machine
words overflows, or the fuel of a loop is exhausted.

`Agrees c m p` says that from `p` the checked reader has an outcome, the one of the plain
reader `m`. Together with `Forward`, which says that a reader never leaves its slice and never
moves back, agreement is closed under sequencing.
-/

namespace Mars

namespace ByteCursor

variable {p q : ByteCursor}

/-- `q` is a position of the same slice, not before `p` and not past the end. -/
structure Before (p q : ByteCursor) : Prop where
  bytes_eq : q.bytes = p.bytes
  le : p.cursor ≤ q.cursor
  inside : q.cursor ≤ p.bytes.length

lemma Before.refl (h : p.cursor ≤ p.bytes.length) : p.Before p :=
  ⟨rfl, Nat.le_refl _, h⟩

lemma Before.trans {r : ByteCursor} (h₁ : p.Before q) (h₂ : q.Before r) : p.Before r where
  bytes_eq := h₂.bytes_eq.trans h₁.bytes_eq
  le := Nat.le_trans h₁.le h₂.le
  inside := h₁.bytes_eq ▸ h₂.inside

lemma Before.inside' (h : p.Before q) : q.cursor ≤ q.bytes.length :=
  h.bytes_eq ▸ h.inside

lemma before_advance {n : Nat} (h : p.cursor + n ≤ p.bytes.length) : p.Before (p.advance n) :=
  ⟨rfl, Nat.le_add_right _ _, h⟩

lemma length_rest (p : ByteCursor) : p.rest.length = p.bytes.length - p.cursor := by
  simp [rest]

lemma Before.length_rest_le (h : p.Before q) : q.rest.length ≤ p.rest.length := by
  have hle := h.le
  rw [length_rest, length_rest, h.bytes_eq]
  omega

lemma Before.length_rest_add_cursor (h : p.Before q) :
    q.rest.length + q.cursor = p.bytes.length := by
  have hin := h.inside
  rw [length_rest, h.bytes_eq]
  omega

/-- The cursor is inside the slice and the slice is no longer than a slice can be: its length
is at most `isize::MAX`. -/
structure Fits (p : ByteCursor) : Prop where
  inside : p.cursor ≤ p.bytes.length
  small : p.bytes.length < 2 ^ 63

lemma Fits.of_before (hp : p.Fits) (h : p.Before q) : q.Fits where
  inside := h.inside'
  small := h.bytes_eq ▸ hp.small

end ByteCursor

/-! ### Readers that only move forward -/

namespace Reader

variable {α β : Type}
variable {m : Reader α} {f : α → Reader β} {p : ByteCursor}

/-- Whether it succeeds or fails, the reader stays in the slice and does not move back. -/
def Forward (m : Reader α) : Prop :=
  ∀ p : ByteCursor, p.cursor ≤ p.bytes.length → p.Before (m.run p).2

lemma Forward.pure (a : α) : Forward (Pure.pure a : Reader α) :=
  fun _ hp => .refl hp

lemma Forward.fail (msg : String) : Forward (Reader.fail msg : Reader α) :=
  fun _ hp => .refl hp

lemma Forward.position : Forward Reader.position :=
  fun _ hp => .refl hp

lemma Forward.remaining : Forward Reader.remaining :=
  fun _ hp => .refl hp

lemma Forward.okOr (o : Option α) (msg : String) : Forward (Reader.okOr o msg) := by
  cases o with
  | none => exact .fail msg
  | some a => exact .pure a

lemma run_bind_error {p' : ByteCursor} {e : String} (h : m.run p = (.error e, p')) :
    (m >>= f).run p = (.error e, p') := by
  show (Reader.bind m f).run p = _
  simp only [Reader.bind, h]

/-- What the outcome of a sequence comes from. -/
lemma ok_of_run_bind {q : ByteCursor} {b : β} (h : (m >>= f).run p = (.ok b, q)) :
    ∃ a p', m.run p = (.ok a, p') ∧ (f a).run p' = (.ok b, q) := by
  rcases hm : m.run p with ⟨a | a, p'⟩
  · rw [run_bind_error hm] at h
    cases h
  · rw [run_bind_ok hm] at h
    exact ⟨a, p', rfl, h⟩

lemma Forward.bind (hm : Forward m) (hf : ∀ a, Forward (f a)) : Forward (m >>= f) := by
  intro p hp
  have hq := hm p hp
  rcases hrun : m.run p with ⟨a | a, q⟩
  · rw [run_bind_error hrun]
    rwa [hrun] at hq
  · rw [run_bind_ok hrun]
    rw [hrun] at hq
    exact hq.trans (hf a q hq.inside')

lemma Forward.ite {c : Prop} [Decidable c] {m' : Reader α} (h : Forward m) (h' : Forward m') :
    Forward (if c then m else m') := by
  split
  · exact h
  · exact h'

lemma Forward.before (hm : Forward m) {q : ByteCursor} {r : Except String α}
    (hp : p.cursor ≤ p.bytes.length) (h : m.run p = (r, q)) : p.Before q := by
  have hq := hm p hp
  rwa [h] at hq

/-- Every value the reader returns satisfies `P`. -/
def Returns (m : Reader α) (P : α → Prop) : Prop :=
  ∀ p a q, m.run p = (.ok a, q) → P a

lemma Returns.pure {a : α} {P : α → Prop} (h : P a) : Returns (Pure.pure a) P := by
  intro p b q hrun
  cases hrun
  exact h

lemma Returns.bind {P : β → Prop} (hf : ∀ a, Returns (f a) P) : Returns (m >>= f) P := by
  intro p b q hrun
  obtain ⟨a, p', -, hb⟩ := ok_of_run_bind hrun
  exact hf a p' b q hb

lemma Returns.ite {c : Prop} [Decidable c] {m' : Reader α} {P : α → Prop} (h : Returns m P)
    (h' : Returns m' P) : Returns (if c then m else m') P := by
  split
  · exact h
  · exact h'

end Reader

/-! ### Machine words and slices -/

variable {a b : Nat}

/-- `a + b` on `usize`. -/
def usizeAdd (a b : Nat) : Option Nat := if a + b < 2 ^ 64 then some (a + b) else none

/-- `a * b` on `usize`. -/
def usizeMul (a b : Nat) : Option Nat := if a * b < 2 ^ 64 then some (a * b) else none

/-- `a - b` on `usize`. -/
def usizeSub (a b : Nat) : Option Nat := if b ≤ a then some (a - b) else none

/-- `a << n` on `usize`: the distance is tested, bits that leave the word are lost. -/
def usizeShl (a n : Nat) : Option Nat := if n < 64 then some ((a <<< n) % 2 ^ 64) else none

/-- `&bytes[start..stop]`. -/
def indexSlice (bytes : List UInt8) (start stop : Nat) : Option (List UInt8) :=
  if start ≤ stop ∧ stop ≤ bytes.length then some ((bytes.drop start).take (stop - start))
  else none

lemma usizeAdd_eq (h : a + b < 2 ^ 64) : usizeAdd a b = some (a + b) := if_pos h

lemma usizeMul_eq (h : a * b < 2 ^ 64) : usizeMul a b = some (a * b) := if_pos h

lemma usizeSub_eq (h : b ≤ a) : usizeSub a b = some (a - b) := if_pos h

lemma usizeShl_eq {n : Nat} (h : n < 64) (hlt : a <<< n < 2 ^ 64) :
    usizeShl a n = some (a <<< n) := by
  rw [usizeShl, if_pos h, Nat.mod_eq_of_lt hlt]

lemma indexSlice_eq {bytes : List UInt8} {start stop : Nat} (h : start ≤ stop)
    (h' : stop ≤ bytes.length) :
    indexSlice bytes start stop = some ((bytes.drop start).take (stop - start)) :=
  if_pos ⟨h, h'⟩

/-- A reader some of whose runs have no outcome. -/
structure CheckedReader (α : Type) where
  run : ByteCursor → Option (Except String α × ByteCursor)

namespace CheckedReader

variable {α β : Type}

protected def pure (a : α) : CheckedReader α := ⟨fun p => some (.ok a, p)⟩

protected def bind (m : CheckedReader α) (f : α → CheckedReader β) : CheckedReader β :=
  ⟨fun p =>
    match m.run p with
    | none                => none
    | some (.ok a, p')    => (f a).run p'
    | some (.error e, p') => some (.error e, p')⟩

instance : Monad CheckedReader where
  pure := CheckedReader.pure
  bind := CheckedReader.bind

def abort : CheckedReader α := ⟨fun _ => none⟩

def fail (msg : String) : CheckedReader α := ⟨fun p => some (.error msg, p)⟩

/-- The outcome of an operation that panics when it is out of range. -/
def expect (o : Option α) : CheckedReader α :=
  match o with
  | some a => pure a
  | none   => abort

/-- `Option::ok_or`. -/
def okOr (o : Option α) (msg : String) : CheckedReader α :=
  match o with
  | some a => pure a
  | none   => fail msg

def get : CheckedReader ByteCursor := ⟨fun p => some (.ok p, p)⟩

def position : CheckedReader Nat := ⟨fun p => some (.ok p.cursor, p)⟩

def moveTo (cursor : Nat) : CheckedReader Unit :=
  ⟨fun p => some (.ok (), { p with cursor := cursor })⟩

@[simp] lemma run_pure (a : α) (p : ByteCursor) :
    (pure a : CheckedReader α).run p = some (.ok a, p) := rfl

@[simp] lemma run_fail (msg : String) (p : ByteCursor) :
    (fail msg : CheckedReader α).run p = some (.error msg, p) := rfl

@[simp] lemma run_get_bind (f : ByteCursor → CheckedReader β) (p : ByteCursor) :
    (get >>= f).run p = (f p).run p := rfl

@[simp] lemma run_position_bind (f : Nat → CheckedReader β) (p : ByteCursor) :
    (position >>= f).run p = (f p.cursor).run p := rfl

@[simp] lemma run_moveTo_bind (c : Nat) (f : Unit → CheckedReader β) (p : ByteCursor) :
    (moveTo c >>= f).run p = (f ()).run { p with cursor := c } := rfl

@[simp] lemma run_expect_some_bind (a : α) (f : α → CheckedReader β) (p : ByteCursor) :
    (expect (some a) >>= f).run p = (f a).run p := rfl

@[simp] lemma run_okOr_some_bind (a : α) (msg : String) (f : α → CheckedReader β)
    (p : ByteCursor) : (okOr (some a) msg >>= f).run p = (f a).run p := rfl

@[simp] lemma run_okOr_none_bind (msg : String) (f : α → CheckedReader β) (p : ByteCursor) :
    (okOr none msg >>= f).run p = some (.error msg, p) := rfl

end CheckedReader

/-! ### Agreement -/

/-- From `p` the checked reader has an outcome, and it is the one of `m`. -/
def Agrees {α : Type} (c : CheckedReader α) (m : Reader α) (p : ByteCursor) : Prop :=
  c.run p = some (m.run p)

namespace Agrees

variable {α β : Type} {p : ByteCursor}
variable {c : CheckedReader α} {m : Reader α}

lemma pure (a : α) : Agrees (Pure.pure a) (Pure.pure a) p := rfl

lemma okOr (o : Option α) (msg : String) :
    Agrees (CheckedReader.okOr o msg) (Reader.okOr o msg) p := by
  cases o with
  | none => rfl
  | some a => rfl

/-- Sequencing: the second parts only have to agree where the first part can stop. -/
lemma bind {f : α → CheckedReader β} {g : α → Reader β} (hp : p.Fits) (h : Agrees c m p)
    (hm : m.Forward)
    (hf : ∀ a q, m.run p = (.ok a, q) → p.Before q → q.Fits → Agrees (f a) (g a) q) :
    Agrees (c >>= f) (m >>= g) p := by
  unfold Agrees at h ⊢
  show (CheckedReader.bind c f).run p = _
  rcases hrun : m.run p with ⟨a | a, q⟩
  · rw [Reader.run_bind_error hrun]
    simp only [CheckedReader.bind, h, hrun]
  · have hq := hm.before hp.inside hrun
    rw [Reader.run_bind_ok hrun]
    simp only [CheckedReader.bind, h, hrun]
    exact hf a q hrun hq (hp.of_before hq)

/-- The current position is known to the second parts. -/
lemma position_bind {f : Nat → CheckedReader β} {g : Nat → Reader β}
    (h : Agrees (f p.cursor) (g p.cursor) p) :
    Agrees (CheckedReader.position >>= f) (Reader.position >>= g) p := h

lemma expect_bind {o : Option α} {a : α} {f : α → CheckedReader β} {m : Reader β} (ho : o = some a)
    (h : Agrees (f a) m p) : Agrees (CheckedReader.expect o >>= f) m p := by
  rw [ho]
  exact h

lemma bind_pure {f : α → β} (h : Agrees c m p) :
    Agrees (c >>= fun a => Pure.pure (f a)) (m >>= fun a => Pure.pure (f a)) p := by
  unfold Agrees at h ⊢
  show (CheckedReader.bind c _).run p = some ((Reader.bind m _).run p)
  simp only [CheckedReader.bind, Reader.bind, h]
  rcases m.run p with ⟨a | a, q⟩
  · rfl
  · rfl

lemma ite {b : Prop} [Decidable b] {c' : CheckedReader α} {m' : Reader α} (h : b → Agrees c m p)
    (h' : ¬b → Agrees c' m' p) : Agrees (if b then c else c') (if b then m else m') p := by
  by_cases hb : b
  · rw [if_pos hb, if_pos hb]
    exact h hb
  · rw [if_neg hb, if_neg hb]
    exact h' hb

end Agrees

end Mars
