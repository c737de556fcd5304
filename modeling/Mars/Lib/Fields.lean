import Mathlib.Algebra.Group.Nat.Defs
import Mathlib.Tactic.Common

/-!
# Fields of registers

A field is a run of bits of a register. Writing a field changes its bits and no others, so a word
that is built field by field is known bit by bit.
-/

namespace Mars.Lib

structure Field (n : Nat) where
  offset : Nat
  width : Nat
  le : offset + width ≤ n

namespace Field

variable {n : Nat}

/-- As many ones as the field has bits. -/
def ones (f : Field n) : BitVec n :=
  if f.width = n then BitVec.allOnes n else BitVec.allOnes n >>> (n - f.width)

def mask (f : Field n) : BitVec n := f.ones <<< f.offset

def lift (f : Field n) (raw : BitVec n) : BitVec n := (raw >>> f.offset) &&& f.ones

def lower (f : Field n) (value : BitVec n) : BitVec n := (value &&& f.ones) <<< f.offset

def modify (f : Field n) (old value : BitVec n) : BitVec n := (old &&& ~~~f.mask) ||| f.lower value

def Has (f : Field n) (i : Nat) : Prop := f.offset ≤ i ∧ i < f.offset + f.width

instance (f : Field n) : DecidablePred f.Has := fun _ => inferInstanceAs (Decidable (_ ∧ _))

variable {f g : Field n} {old value raw : BitVec n} {i : Nat}

lemma getLsbD_ones (f : Field n) (i : Nat) : f.ones.getLsbD i = decide (i < f.width) := by
  have hle := f.le
  rw [ones]
  split_ifs with h
  · simp [h]
  · rw [BitVec.getLsbD_ushiftRight, BitVec.getLsbD_allOnes, decide_eq_decide]
    omega

lemma getLsbD_mask (f : Field n) (i : Nat) : f.mask.getLsbD i = decide (f.Has i) := by
  have hle := f.le
  rw [mask, BitVec.getLsbD_shiftLeft, getLsbD_ones]
  by_cases hi : f.Has i
  · obtain ⟨hlow, hhigh⟩ := hi
    simp [Has, hlow, hhigh]
    omega
  · have hnot : ¬ (i < n ∧ f.offset ≤ i ∧ i - f.offset < f.width) := by
      rintro ⟨-, hlow, hlt⟩
      exact hi ⟨hlow, by omega⟩
    simpa [hi] using hnot

/-- The bits of the field are those of the value, the others stay. -/
lemma getLsbD_modify (f : Field n) (old value : BitVec n) (i : Nat) :
    (f.modify old value).getLsbD i =
      if f.Has i then value.getLsbD (i - f.offset) else old.getLsbD i := by
  have hle := f.le
  rw [modify, lower, BitVec.getLsbD_or, BitVec.getLsbD_and, BitVec.getLsbD_not, getLsbD_mask,
    BitVec.getLsbD_shiftLeft, BitVec.getLsbD_and, getLsbD_ones]
  split_ifs with hi
  · obtain ⟨hlow, hhigh⟩ := hi
    have hin : i < n := by omega
    have hlt : i - f.offset < f.width := by omega
    simp [Has, hlow, hhigh, hin, hlt]
  · by_cases hin : i < n
    · have hnot : ¬ (f.offset ≤ i ∧ i - f.offset < f.width) := by
        rintro ⟨hlow, hlt⟩
        exact hi ⟨hlow, by omega⟩
      by_cases hlow : f.offset ≤ i
      · have hlt : ¬ i - f.offset < f.width := fun hlt => hnot ⟨hlow, hlt⟩
        simp [hi, hin, hlt]
      · simp [hi, hin, hlow]
    · simp [hin, BitVec.getLsbD_of_ge _ _ (Nat.le_of_not_lt hin)]

lemma getLsbD_lift (f : Field n) (raw : BitVec n) (i : Nat) :
    (f.lift raw).getLsbD i = (decide (i < f.width) && raw.getLsbD (f.offset + i)) := by
  rw [lift, BitVec.getLsbD_and, BitVec.getLsbD_ushiftRight, getLsbD_ones, Bool.and_comm]

lemma lift_bne_zero (hwidth : f.width = 1) (raw : BitVec n) :
    (f.lift raw != 0) = raw.getLsbD f.offset := by
  have hbit : f.lift raw = 0 ↔ raw.getLsbD f.offset = false := by
    constructor
    · intro h
      have hzero := getLsbD_lift f raw 0
      simpa [h, hwidth] using hzero.symm
    · intro h
      apply BitVec.eq_of_getLsbD_eq
      intro i hi
      rw [getLsbD_lift, hwidth]
      by_cases hi0 : i = 0
      · simp [hi0, h]
      · have hnot : ¬ i < 1 := by omega
        simp [hnot]
  cases hraw : raw.getLsbD f.offset with
  | false => simp [hbit.2 hraw]
  | true =>
    have hne : f.lift raw ≠ 0 := by
      rw [Ne, hbit, hraw]
      decide
    simpa using hne

end Field

/-! ### Words made of parts -/

section Place

variable {n k : Nat}

/-- The bits at the given offset, all others being zero. -/
def place (n : Nat) (v : BitVec k) (offset : Nat) : BitVec n := v.setWidth n <<< offset

def takeBits (k : Nat) (w : BitVec n) (offset : Nat) : BitVec k := (w >>> offset).setWidth k

variable {v : BitVec k} {w : BitVec n} {o : Nat} {f : Field n}

lemma getLsbD_place (v : BitVec k) (o i : Nat) :
    (place n v o).getLsbD i = (decide (i < n) && decide (o ≤ i) && v.getLsbD (i - o)) := by
  by_cases hi : i < n
  · by_cases ho : o ≤ i
    · simp [place, hi, ho]
    · simp [place, hi, ho]
  · simp [place, hi]

lemma getLsbD_place_of_apart {i : Nat} (h : i < o ∨ o + k ≤ i) :
    (place n v o).getLsbD i = false := by
  rw [getLsbD_place]
  rcases h with h | h
  · simp [Nat.not_le.2 h]
  · simp [BitVec.getLsbD_of_ge v (i - o) (by omega)]

lemma takeBits_or (w w' : BitVec n) (o : Nat) :
    takeBits k (w ||| w') o = takeBits k w o ||| takeBits k w' o := by
  simp [takeBits, BitVec.ushiftRight_or_distrib, BitVec.setWidth_or]

lemma Field.lift_eq_takeBits (f : Field n) (raw : BitVec n) :
    f.lift raw = (takeBits f.width raw f.offset).setWidth n := by
  apply BitVec.eq_of_getLsbD_eq
  intro i hi
  rw [Field.getLsbD_lift, takeBits]
  simp [hi]

lemma takeBits_place (hle : o + k ≤ n) : takeBits k (place n v o) o = v := by
  apply BitVec.eq_of_getLsbD_eq
  intro i hi
  have hin : o + i < n := by omega
  rw [takeBits, BitVec.getLsbD_setWidth, BitVec.getLsbD_ushiftRight, getLsbD_place]
  simp [hi, hin]

lemma takeBits_place_of_apart {j o' : Nat} (h : o' + j ≤ o ∨ o + k ≤ o') :
    takeBits j (place n v o) o' = 0#j := by
  apply BitVec.eq_of_getLsbD_eq
  intro i hi
  rw [takeBits, BitVec.getLsbD_setWidth, BitVec.getLsbD_ushiftRight,
    getLsbD_place_of_apart (by omega)]
  simp

def Clear (f : Field n) (w : BitVec n) : Prop := ∀ i, f.Has i → w.getLsbD i = false

lemma clear_zero (f : Field n) : Clear f 0#n := fun _ _ => BitVec.getLsbD_zero

lemma clear_place (h : f.offset + f.width ≤ o ∨ o + k ≤ f.offset) : Clear f (place n v o) := by
  rintro i ⟨hlow, hhigh⟩
  exact getLsbD_place_of_apart (by omega)

lemma Clear.or {w w' : BitVec n} (h : Clear f w) (h' : Clear f w') : Clear f (w ||| w') := by
  intro i hi
  rw [BitVec.getLsbD_or, h i hi, h' i hi]
  rfl

/-- A field that was zero has its value as a part of the word. -/
lemma Clear.modify (hw : Clear f w) (value : BitVec n) :
    f.modify w value = w ||| place n (value.setWidth f.width) f.offset := by
  apply BitVec.eq_of_getLsbD_eq
  intro i hi
  rw [Field.getLsbD_modify, BitVec.getLsbD_or, getLsbD_place]
  split_ifs with hf
  · obtain ⟨hlow, hhigh⟩ := id hf
    have hlt : i - f.offset < f.width := by omega
    rw [hw i hf]
    simp [hi, hlow, hlt]
  · by_cases ho : f.offset ≤ i
    · have hlt : ¬ i - f.offset < f.width := fun hlt => hf ⟨ho, by omega⟩
      simp [hlt]
    · simp [ho]

lemma modify_zero (f : Field n) (value : BitVec n) :
    f.modify 0#n value = place n (value.setWidth f.width) f.offset := by
  rw [(clear_zero f).modify, BitVec.zero_or]

end Place

end Mars.Lib
