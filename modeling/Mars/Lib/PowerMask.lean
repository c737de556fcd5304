import Mathlib.Data.Nat.Bitwise
import Mathlib.Tactic.Common

/-!
# Masks of powers of two

A word whose lowest bits are clear beside some bits that are only there. The mask of all bits from
`k` on tells the power `2 ^ k`, since it is its negation.
-/

namespace Mars.Lib

variable {n k t j : Nat} {a c m : BitVec n}

def highMask (n k : Nat) : BitVec n := BitVec.allOnes n <<< k

@[simp] lemma getLsbD_highMask (n k i : Nat) :
    (highMask n k).getLsbD i = (decide (i < n) && decide (k ≤ i)) := by
  rw [highMask, BitVec.getLsbD_shiftLeft, BitVec.getLsbD_allOnes]
  grind

def ClearBelow (t : Nat) (a : BitVec n) : Prop := ∀ i < t, a.getLsbD i = false

lemma ClearBelow.mono (h : ClearBelow k a) (htk : t ≤ k) : ClearBelow t a :=
  fun i hi => h i (hi.trans_le htk)

lemma clearBelow_of_dvd (h : 2 ^ k ∣ a.toNat) : ClearBelow k a := by
  intro i hi
  obtain ⟨q, hq⟩ := h
  rw [← BitVec.testBit_toNat, hq, Nat.testBit_two_pow_mul]
  simp [not_le.mpr hi]

lemma clearBelow_highMask (n k : Nat) : ClearBelow k (highMask n k) := by
  intro i hi
  simp [not_le.mpr hi]

lemma getLsbD_of_lt (h : c.toNat < 2 ^ t) {i : Nat} (hi : t ≤ i) : c.getLsbD i = false := by
  rw [← BitVec.testBit_toNat]
  exact Nat.testBit_lt_two_pow (h.trans_le (Nat.pow_le_pow_right Nat.two_pos hi))

lemma ClearBelow.or_highMask (ha : ClearBelow k a) : a ||| highMask n k = highMask n k := by
  refine BitVec.eq_of_getLsbD_eq fun i hi => ?_
  rw [BitVec.getLsbD_or, getLsbD_highMask]
  by_cases hik : i < k
  · simp [ha i hik]
  · simp [hi, not_lt.mp hik]

lemma or_or_of_or_eq (h : a ||| m = m) (c : BitVec n) : a ||| c ||| m = m ||| c := by
  rw [BitVec.or_assoc, BitVec.or_comm c, ← BitVec.or_assoc, h]

/-- The word without the bits beside it. -/
lemma ClearBelow.or_and_highMask (ha : ClearBelow t a) (hc : c.toNat < 2 ^ t) :
    (a ||| c) &&& highMask n t = a := by
  refine BitVec.eq_of_getLsbD_eq fun i hi => ?_
  rw [BitVec.getLsbD_and, BitVec.getLsbD_or, getLsbD_highMask]
  by_cases hit : i < t
  · simp [ha i hit, not_le.mpr hit]
  · rw [getLsbD_of_lt hc (not_lt.mp hit)]
    simp [hi, not_lt.mp hit]

/-- A test of the bits beside the word. -/
lemma ClearBelow.or_shift_and (ha : ClearBelow t a) (hm : m.toNat < 2 ^ (t - j)) :
    ((a ||| c) >>> j) &&& m = (c >>> j) &&& m := by
  refine BitVec.eq_of_getLsbD_eq fun i _ => ?_
  by_cases hij : i < t - j
  · simp [ha (j + i) (by omega)]
  · simp [getLsbD_of_lt hm (not_lt.mp hij)]

lemma not_highMask_add_one (n k : Nat) : ~~~(highMask n k) + 1#n = BitVec.twoPow n k := by
  rw [← BitVec.neg_eq_not_add, highMask, BitVec.shiftLeft_eq_mul_twoPow,
    ← BitVec.neg_one_eq_allOnes, BitVec.neg_mul, BitVec.one_mul, BitVec.neg_neg]

lemma highMask_ne_zero (h : k < n) : highMask n k ≠ 0#n := by
  intro hzero
  have hbit := getLsbD_highMask n k k
  rw [hzero] at hbit
  simp [h] at hbit

end Mars.Lib
