import Mathlib.Algebra.Group.Nat.Defs
import Mathlib.Data.Set.Function
import Mathlib.Order.Interval.Set.Defs
import Mathlib.Tactic.Common

/-!
# Memories of bytes

Numbers are stored with their lowest byte first. Reading a number gives back what was stored, and
storing one is not seen at other addresses.
-/

namespace Mars.Lib

open Function

abbrev Mem := Nat → UInt8

namespace Mem

def load (m : Mem) : (n a : Nat) → Nat
  | 0,     _ => 0
  | n + 1, a => (m a).toNat + 256 * load m n (a + 1)

/-- Write the lowest `n` bytes of a number. -/
def store : (m : Mem) → (n a v : Nat) → Mem
  | m, 0,     _, _ => m
  | m, n + 1, a, v => store (update m a (UInt8.ofNat v)) n (a + 1) (v / 256)

def fill (m : Mem) (a : Nat) (v : UInt8) : Nat → Mem
  | 0     => m
  | n + 1 => update (fill m a v n) (a + n) v

def word (m : Mem) (a : Nat) : Nat := m.load 8 a

def setWord (m : Mem) (a v : Nat) : Mem := m.store 8 a v

def wordBytes (a : Nat) : Set Nat := Set.Ico a (a + 8)

variable {m m' : Mem} {a b n k v : Nat}

lemma store_of_outside (hb : b < a ∨ a + n ≤ b) : m.store n a v b = m b := by
  induction n generalizing m a v with
  | zero => rfl
  | succ n ih =>
    rw [store, ih (by omega), update_of_ne (by omega)]

lemma load_congr (hm : Set.EqOn m m' (Set.Ico a (a + n))) : m.load n a = m'.load n a := by
  induction n generalizing a with
  | zero => rfl
  | succ n ih =>
    rw [load, load, hm ⟨Nat.le_refl a, by omega⟩, ih]
    exact fun b hb => hm ⟨by have := hb.1; omega, by have := hb.2; omega⟩

lemma load_eq_of_bytes (hm : ∀ i < n, m' (b + i) = m (a + i)) : m'.load n b = m.load n a := by
  induction n generalizing a b with
  | zero => rfl
  | succ n ih =>
    have hrest : ∀ i < n, m' (b + 1 + i) = m (a + 1 + i) := by
      intro i hi
      have hbyte := hm (i + 1) (by omega)
      rwa [Nat.add_comm i, ← Nat.add_assoc, ← Nat.add_assoc] at hbyte
    have hfirst : m' b = m a := hm 0 (Nat.succ_pos n)
    rw [load, load, hfirst, ih hrest]

lemma load_lt (m : Mem) (n a : Nat) : m.load n a < 256 ^ n := by
  induction n generalizing a with
  | zero => exact Nat.one_pos
  | succ n ih =>
    have hbyte := (m a).toNat_lt
    have hrest := ih (a + 1)
    rw [load, Nat.pow_succ]
    omega

lemma load_store (hv : v < 256 ^ n) : (m.store n a v).load n a = v := by
  induction n generalizing m a v with
  | zero =>
    rw [load]
    omega
  | succ n ih =>
    have hlt : v / 256 < 256 ^ n := by
      omega
    rw [load, store, ih hlt, store_of_outside (.inl (Nat.lt_succ_self a)),
      update_self, UInt8.toNat_ofNat']
    omega

lemma load_store_of_disjoint (hab : a + n ≤ b ∨ b + k ≤ a) :
    (m.store k b v).load n a = m.load n a := by
  refine load_congr fun c hc => store_of_outside ?_
  have := hc.1
  have := hc.2
  omega

lemma fill_apply (w : UInt8) : m.fill a w n b = if a ≤ b ∧ b < a + n then w else m b := by
  induction n with
  | zero =>
    rw [fill, if_neg (by omega)]
  | succ n ih =>
    rw [fill]
    by_cases hb : b = a + n
    · rw [hb, update_self, if_pos (by omega)]
    · rw [update_of_ne hb, ih]
      congr 1
      simp only [eq_iff_iff]
      omega

lemma fill_of_outside {w : UInt8} (hb : b < a ∨ a + n ≤ b) : m.fill a w n b = m b := by
  rw [fill_apply, if_neg (by omega)]

/-! ### Words -/

lemma word_lt (m : Mem) (a : Nat) : m.word a < 2 ^ 64 := m.load_lt 8 a

lemma word_congr (hm : Set.EqOn m m' (wordBytes a)) : m.word a = m'.word a := load_congr hm

lemma word_eq_of_bytes (hm : ∀ i < 8, m' (b + i) = m (a + i)) : m'.word b = m.word a :=
  load_eq_of_bytes hm

@[simp] lemma word_setWord (hv : v < 2 ^ 64) : (m.setWord a v).word a = v := load_store hv

lemma word_setWord_of_disjoint (hab : a + 8 ≤ b ∨ b + 8 ≤ a) : (m.setWord b v).word a = m.word a :=
  load_store_of_disjoint hab

lemma setWord_of_outside (hb : b < a ∨ a + 8 ≤ b) : m.setWord a v b = m b :=
  store_of_outside hb

end Mem

end Mars.Lib
