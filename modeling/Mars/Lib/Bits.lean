import Mathlib.Data.Nat.Bitwise
import Mathlib.Tactic.Ring

/-!
# Bits of numbers of 64 bits
-/

namespace Mars.Lib.Bits

/-- The number of zeros among the lowest `k` bits before the first one. -/
def zerosBelow : (k n : Nat) → Nat
  | 0,     _ => 0
  | k + 1, n => if n % 2 = 1 then 0 else zerosBelow k (n / 2) + 1

def trailingZeros (n : Nat) : Nat := zerosBelow 64 n

/-- The complement of a number of 64 bits. -/
def complement (n : Nat) : Nat := (2 ^ 64 - 1) ^^^ n

variable {i k n o : Nat}

lemma two_pow_zerosBelow_dvd (k n : Nat) : 2 ^ zerosBelow k n ∣ n := by
  induction k generalizing n with
  | zero => exact one_dvd n
  | succ k ih =>
    rw [zerosBelow]
    split_ifs with hodd
    · exact one_dvd n
    · have heven : 2 * (n / 2) = n := by omega
      rw [pow_succ', ← heven]
      simpa using Nat.mul_dvd_mul_left 2 (ih (n / 2))

lemma two_pow_trailingZeros_dvd (n : Nat) : 2 ^ trailingZeros n ∣ n :=
  two_pow_zerosBelow_dvd 64 n

lemma zerosBelow_two_pow (hn : n < k) : zerosBelow k (2 ^ n) = n := by
  induction n generalizing k with
  | zero =>
    obtain ⟨k, rfl⟩ : ∃ j, k = j + 1 := ⟨k - 1, by omega⟩
    rfl
  | succ n ih =>
    obtain ⟨k, rfl⟩ : ∃ j, k = j + 1 := ⟨k - 1, by omega⟩
    have heven : 2 ^ (n + 1) % 2 ≠ 1 := by
      rw [pow_succ]
      omega
    rw [zerosBelow, if_neg heven, pow_succ, Nat.mul_div_cancel _ Nat.two_pos, ih (by omega)]

lemma trailingZeros_two_pow (hn : n < 64) : trailingZeros (2 ^ n) = n := zerosBelow_two_pow hn

/-- Flipping the bit `o` of a multiple of `2 ^ o` leads to the other half of the same multiple of
`2 ^ (o + 1)`. -/
lemma mul_two_pow_xor (k o : Nat) : (k * 2 ^ o) ^^^ (1 <<< o) = (k ^^^ 1) * 2 ^ o := by
  rw [← Nat.shiftLeft_eq, ← Nat.shiftLeft_eq, Nat.shiftLeft_xor_distrib]

lemma xor_one (k : Nat) : k ^^^ 1 = if k % 2 = 0 then k + 1 else k - 1 := by
  split_ifs with hk
  · exact Nat.xor_one_of_even (Nat.even_iff.2 hk)
  · exact Nat.xor_one_of_odd (Nat.odd_iff.2 (by omega))

lemma mul_two_pow_and_complement (hlt : k * 2 ^ o < 2 ^ 64) :
    (k * 2 ^ o) &&& complement (1 <<< o) = k / 2 * 2 ^ (o + 1) := by
  have heq : k / 2 * 2 ^ (o + 1) = (k / 2 * 2) * 2 ^ o := by ring
  have hle : (k / 2 * 2) * 2 ^ o ≤ k * 2 ^ o := Nat.mul_le_mul_right _ (by omega)
  rw [heq]
  refine Nat.eq_of_testBit_eq fun j => ?_
  rw [complement, Nat.testBit_and, Nat.testBit_xor, Nat.testBit_two_pow_sub_one]
  by_cases hj : j < 64
  · rw [Nat.testBit_shiftLeft, Nat.testBit_mul_two_pow, Nat.testBit_mul_two_pow]
    by_cases hoj : o ≤ j
    · obtain ⟨i, rfl⟩ : ∃ i, j = o + i := ⟨j - o, by omega⟩
      cases i with
      | zero =>
        have ho : o < 64 := hj
        simp [ho]
      | succ i => simp [hj, Nat.testBit_succ]
    · simp [hoj]
  · have hpow : 2 ^ 64 ≤ 2 ^ j := Nat.pow_le_pow_right Nat.two_pos (by omega)
    rw [Nat.testBit_lt_two_pow (hlt.trans_le hpow),
      Nat.testBit_lt_two_pow (hle.trans_lt (hlt.trans_le hpow))]
    rfl

lemma and_complement_mask {x : Nat} (k : Nat) (hx : x < 2 ^ 64) :
    x &&& complement (2 ^ k - 1) = x / 2 ^ k * 2 ^ k := by
  refine Nat.eq_of_testBit_eq fun j => ?_
  rw [complement, Nat.testBit_and, Nat.testBit_xor, Nat.testBit_two_pow_sub_one,
    Nat.testBit_two_pow_sub_one, Nat.testBit_mul_two_pow]
  by_cases hj : j < 64
  · by_cases hk : k ≤ j
    · simp [hj, hk, Nat.testBit_div_two_pow]
    · simp [hj, hk, Nat.lt_of_not_le hk]
  · have hpow : 2 ^ 64 ≤ 2 ^ j := Nat.pow_le_pow_right Nat.two_pos (by omega)
    have hbit := Nat.testBit_lt_two_pow (hx.trans_le hpow)
    by_cases hk : k ≤ j
    · simp [hbit, Nat.testBit_div_two_pow, hk]
    · simp [hbit, hk]

lemma xor_of_dvd (h : 2 ^ (o + 1) ∣ i) : i ^^^ (1 <<< o) = i + 2 ^ o := by
  obtain ⟨k, rfl⟩ := h
  rw [show 2 ^ (o + 1) * k = 2 * k * 2 ^ o by ring, mul_two_pow_xor, xor_one, if_pos (by omega)]
  ring

lemma add_xor_of_dvd (h : 2 ^ (o + 1) ∣ i) : (i + 2 ^ o) ^^^ (1 <<< o) = i := by
  obtain ⟨k, rfl⟩ := h
  rw [show 2 ^ (o + 1) * k + 2 ^ o = (2 * k + 1) * 2 ^ o by ring, mul_two_pow_xor, xor_one,
    if_neg (by omega), Nat.add_sub_cancel]
  ring

lemma le_zerosBelow (hn : n ≠ 0) {j : Nat} (hj : j ≤ k) (h : 2 ^ j ∣ n) : j ≤ zerosBelow k n := by
  induction k generalizing j n with
  | zero => exact hj
  | succ k ih =>
    cases j with
    | zero => exact Nat.zero_le _
    | succ j =>
      obtain ⟨d, rfl⟩ := h
      have heven : 2 ^ (j + 1) * d = 2 * (2 ^ j * d) := by ring
      have hhalf : 2 ^ j * d ≠ 0 := by
        omega
      rw [heven, zerosBelow, if_neg (by omega), Nat.mul_div_cancel_left _ Nat.two_pos]
      have hle := ih hhalf (Nat.le_of_succ_le_succ hj) (Nat.dvd_mul_right _ d)
      omega

lemma le_trailingZeros (hn : n ≠ 0) {j : Nat} (hj : j ≤ 64) (h : 2 ^ j ∣ n) : j ≤ trailingZeros n :=
  le_zerosBelow hn hj h

/-- Of two aligned intervals that meet, the smaller one is within the other. -/
lemma aligned_subset {a : Nat} (hko : k ≤ o) (ha : 2 ^ o ∣ a) (hi : 2 ^ k ∣ i) (hlt : a < i + 2 ^ k)
    (hlt' : i < a + 2 ^ o) : a ≤ i ∧ i + 2 ^ k ≤ a + 2 ^ o := by
  obtain ⟨j, rfl⟩ : ∃ j, o = k + j := ⟨o - k, by omega⟩
  obtain ⟨c, rfl⟩ := ha
  obtain ⟨d, rfl⟩ := hi
  have ha' : 2 ^ (k + j) * c = 2 ^ k * (2 ^ j * c) := by ring
  have hend : 2 ^ k * (2 ^ j * c) + 2 ^ (k + j) = 2 ^ k * (2 ^ j * c + 2 ^ j) := by ring
  have hlast : 2 ^ k * d + 2 ^ k = 2 ^ k * (d + 1) := by ring
  rw [ha'] at hlt hlt' ⊢
  rw [hend] at hlt' ⊢
  rw [hlast] at hlt ⊢
  have hle := Nat.lt_of_mul_lt_mul_left hlt
  have hle' := Nat.lt_of_mul_lt_mul_left hlt'
  exact ⟨Nat.mul_le_mul_left _ (Nat.le_of_lt_succ hle), Nat.mul_le_mul_left _ hle'⟩

/-- A multiple of `2 ^ o` is the lower or the upper half of a multiple of `2 ^ (o + 1)`; flipping
the bit `o` leads to the other half, clearing it to the lower one. -/
lemma xor_cases (hal : 2 ^ o ∣ i) (hlt : i < 2 ^ 64) :
    (i ^^^ (1 <<< o) = i + 2 ^ o ∧ i &&& complement (1 <<< o) = i ∧ 2 ^ (o + 1) ∣ i) ∨
    (i = (i ^^^ (1 <<< o)) + 2 ^ o ∧ i &&& complement (1 <<< o) = i ^^^ (1 <<< o) ∧
      2 ^ (o + 1) ∣ i ^^^ (1 <<< o)) := by
  obtain ⟨k, rfl⟩ := hal
  rw [mul_comm] at hlt ⊢
  rw [mul_two_pow_and_complement hlt, mul_two_pow_xor, xor_one, pow_succ]
  split_ifs with hk
  · left
    obtain ⟨j, rfl⟩ : ∃ j, k = 2 * j := ⟨k / 2, by omega⟩
    rw [Nat.mul_div_cancel_left _ Nat.two_pos]
    refine ⟨by ring, by ring, ⟨j, by ring⟩⟩
  · right
    obtain ⟨j, rfl⟩ : ∃ j, k = 2 * j + 1 := ⟨k / 2, by omega⟩
    rw [show (2 * j + 1) / 2 = j by omega, Nat.add_sub_cancel]
    refine ⟨by ring, by ring, ⟨j, by ring⟩⟩

end Mars.Lib.Bits
