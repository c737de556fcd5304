import Mathlib.Algebra.Group.Nat.Defs
import Mathlib.Tactic.Common

/-!
# Readers over a byte slice

A `Reader` consumes bytes from a `ByteCursor` and may fail; a failing reader still leaves the cursor
where the failure happened.

`Reads p m enc v` is the specification used for every reader: if the bytes `enc` stand at the
cursor of `p`, then `m` consumes exactly these bytes and returns `v`. It is closed under
sequencing.
-/

namespace Mars

structure ByteCursor where
  bytes : List UInt8
  cursor : Nat
deriving DecidableEq, Repr

namespace ByteCursor

variable {p : ByteCursor}

/-- The bytes from the cursor to the end of the slice. -/
def rest (p : ByteCursor) : List UInt8 := p.bytes.drop p.cursor

def advance (p : ByteCursor) (n : Nat) : ByteCursor := { p with cursor := p.cursor + n }

@[simp] lemma advance_bytes (p : ByteCursor) (n : Nat) : (p.advance n).bytes = p.bytes := rfl

@[simp] lemma advance_cursor (p : ByteCursor) (n : Nat) :
    (p.advance n).cursor = p.cursor + n := rfl

@[simp] lemma advance_zero (p : ByteCursor) : p.advance 0 = p := rfl

lemma advance_advance (p : ByteCursor) (m n : Nat) :
    (p.advance m).advance n = p.advance (m + n) := by
  simp [advance, Nat.add_assoc]

lemma rest_advance (p : ByteCursor) (n : Nat) : (p.advance n).rest = p.rest.drop n := by
  simp [rest, List.drop_drop]

lemma rest_eq_nil_iff (p : ByteCursor) : p.rest = [] ↔ p.bytes.length ≤ p.cursor := by
  simp [rest]

/-- The cursor is inside the slice and `enc` stands at it. -/
def At (p : ByteCursor) (enc : List UInt8) : Prop :=
  p.cursor ≤ p.bytes.length ∧ enc <+: p.rest

lemma At.length_le {enc : List UInt8} (h : p.At enc) : p.cursor + enc.length ≤ p.bytes.length := by
  have hle := h.2.length_le
  have hcur := h.1
  simp only [rest, List.length_drop] at hle
  omega

/-- The bytes at the cursor are a slice of the whole input. -/
lemma At.slice_eq {enc : List UInt8} (h : p.At enc) :
    (p.bytes.drop p.cursor).take enc.length = enc :=
  (List.prefix_iff_eq_take.mp h.2).symm

lemma At.left {e₁ e₂ : List UInt8} (h : p.At (e₁ ++ e₂)) : p.At e₁ :=
  ⟨h.1, (List.prefix_append e₁ e₂).trans h.2⟩

lemma At.right {e₁ e₂ : List UInt8} (h : p.At (e₁ ++ e₂)) : (p.advance e₁.length).At e₂ := by
  refine ⟨h.left.length_le, ?_⟩
  obtain ⟨r, hr⟩ := h.2
  rw [rest_advance, ← hr, List.append_assoc, List.drop_left]
  exact List.prefix_append e₂ r

end ByteCursor

/-- A fallible computation on a cursor. The cursor is returned on failure as well. -/
structure Reader (α : Type) where
  run : ByteCursor → Except String α × ByteCursor

namespace Reader

variable {α β : Type}

protected def pure (a : α) : Reader α := ⟨fun p => (.ok a, p)⟩

protected def bind (m : Reader α) (f : α → Reader β) : Reader β :=
  ⟨fun p =>
    match m.run p with
    | (.ok a, p')    => (f a).run p'
    | (.error e, p') => (.error e, p')⟩

instance : Monad Reader where
  pure := Reader.pure
  bind := Reader.bind

@[simp] lemma run_pure (a : α) (p : ByteCursor) : (pure a : Reader α).run p = (.ok a, p) := rfl

lemma run_bind_ok {m : Reader α} {f : α → Reader β} {p p' : ByteCursor} {a : α}
    (h : m.run p = (.ok a, p')) : (m >>= f).run p = (f a).run p' := by
  show (Reader.bind m f).run p = _
  simp only [Reader.bind, h]

def fail (msg : String) : Reader α := ⟨fun p => (.error msg, p)⟩

def position : Reader Nat := ⟨fun p => (.ok p.cursor, p)⟩

/-- Number of bytes left, the bound on any loop that consumes a byte an iteration. -/
def remaining : Reader Nat := ⟨fun p => (.ok p.rest.length, p)⟩

/-- `Option::ok_or`. -/
def okOr (o : Option α) (msg : String) : Reader α :=
  match o with
  | some a => pure a
  | none   => fail msg

end Reader

/-- If `enc` stands at the cursor, `m` consumes exactly `enc` and returns `v`. -/
def Reads {α : Type} (p : ByteCursor) (m : Reader α) (enc : List UInt8) (v : α) : Prop :=
  p.At enc → m.run p = (.ok v, p.advance enc.length)

namespace Reads

variable {α β : Type} {p : ByteCursor}
variable {m : Reader α} {a : α} {e : List UInt8}

lemma pure (v : α) : Reads p (Pure.pure v) [] v := by
  intro _
  rfl

/-- Sequencing: the second reader starts where the first one stopped. -/
lemma bind {f : α → Reader β} {e₁ e₂ : List UInt8} {b : β} (h₁ : Reads p m e₁ a)
    (h₂ : Reads (p.advance e₁.length) (f a) e₂ b) : Reads p (m >>= f) (e₁ ++ e₂) b := by
  intro h
  have hm := h₁ h.left
  have hf := h₂ h.right
  rw [ByteCursor.advance_advance] at hf
  rw [Reader.run_bind_ok hm, hf, List.length_append]

lemma bind_nil {f : α → Reader β} {b : β} (h₁ : Reads p m [] a) (h₂ : Reads p (f a) e b) :
    Reads p (m >>= f) e b := by
  have h := bind h₁ (by simpa using h₂)
  simpa using h

lemma bind_pure {f : α → β} (h : Reads p m e a) :
    Reads p (m >>= fun x => Pure.pure (f x)) e (f a) := by
  have h' : Reads p (m >>= fun x => Pure.pure (f x)) (e ++ []) (f a) := bind h (pure (f a))
  simpa using h'

lemma position : Reads p Reader.position [] p.cursor := by
  intro _
  rfl

lemma okOr_some (a : α) (msg : String) : Reads p (Reader.okOr (some a) msg) [] a := by
  intro _
  rfl

end Reads

end Mars
