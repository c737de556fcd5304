import Mathlib.Data.List.Basic
import Mathlib.Logic.Function.Basic
import Mathlib.Tactic.Common

/-!
# Rings of slots

A ring has `n` slots. A reader and a writer go round; what is between them has been written and not
been read. The ring is empty if they are at the same slot, so one slot always stays free.
-/

namespace Mars.Lib.Ring

/-- The number of slots from the reader to the writer. -/
def dist (n r w : Nat) : Nat := (w + n - r) % n

/-- The slots from the reader on hold the list. -/
def Holds {α : Type*} (n : Nat) (slots : Nat → α) (r : Nat) : List α → Prop
  | []     => True
  | x :: l => slots r = x ∧ Holds n slots ((r + 1) % n) l

variable {n r w : Nat}

lemma succ_mod (hr : r < n) : (r + 1) % n = if r + 1 = n then 0 else r + 1 := by
  split_ifs with h
  · rw [h, Nat.mod_self]
  · exact Nat.mod_eq_of_lt (by omega)

lemma dist_eq (hr : r < n) (hw : w < n) : dist n r w = if r ≤ w then w - r else w + n - r := by
  rw [dist]
  split_ifs with h
  · rw [show w + n - r = w - r + n by omega, Nat.add_mod_right, Nat.mod_eq_of_lt (by omega)]
  · exact Nat.mod_eq_of_lt (by omega)

lemma dist_lt (hr : r < n) (w : Nat) : dist n r w < n := Nat.mod_lt _ (by omega)

lemma dist_self (hr : r < n) : dist n r r = 0 := by simp [dist_eq hr hr]

lemma dist_eq_zero_iff (hr : r < n) (hw : w < n) : dist n r w = 0 ↔ r = w := by
  rw [dist_eq hr hw]
  split_ifs <;> omega

/-- The reader is right before the writer if only one slot is free. -/
lemma succ_mod_eq_iff (hr : r < n) (hw : w < n) : (w + 1) % n = r ↔ dist n r w + 1 = n := by
  rw [dist_eq hr hw, succ_mod hw]
  split_ifs <;> omega

lemma dist_succ_right (hr : r < n) (hw : w < n) (h : dist n r w + 1 < n) :
    dist n r ((w + 1) % n) = dist n r w + 1 := by
  have hlt : (w + 1) % n < n := Nat.mod_lt _ (by omega)
  rw [dist_eq hr hw] at h ⊢
  rw [dist_eq hr hlt, succ_mod hw]
  split_ifs at h ⊢ <;> omega

lemma dist_succ_left (hr : r < n) (hw : w < n) (h : r ≠ w) :
    dist n ((r + 1) % n) w + 1 = dist n r w := by
  have hlt : (r + 1) % n < n := Nat.mod_lt _ (by omega)
  rw [dist_eq hlt hw, dist_eq hr hw, succ_mod hr]
  split_ifs <;> omega

section Holds

variable {α : Type*} {slots : Nat → α} {x : α} {l : List α}

lemma Holds.update (hr : r < n) (hw : w < n) (h : Holds n slots r l) (hl : l.length ≤ dist n r w) :
    Holds n (Function.update slots w x) r l := by
  induction l generalizing r with
  | nil => trivial
  | cons y l ih =>
    obtain ⟨hy, hrest⟩ := h
    have hne : r ≠ w := by
      rintro rfl
      rw [dist_self hr] at hl
      cases hl
    have hdist := dist_succ_left hr hw hne
    rw [List.length_cons] at hl
    refine ⟨?_, ih (Nat.mod_lt _ (by omega)) hrest (by omega)⟩
    rw [Function.update_of_ne hne, hy]

lemma Holds.snoc (hr : r < n) (hw : w < n) (h : Holds n slots r l) (hl : l.length = dist n r w)
    (hx : slots w = x) : Holds n slots r (l ++ [x]) := by
  induction l generalizing r with
  | nil =>
    rw [List.length_nil, eq_comm, dist_eq_zero_iff hr hw] at hl
    subst hl
    exact ⟨hx, trivial⟩
  | cons y l ih =>
    obtain ⟨hy, hrest⟩ := h
    have hne : r ≠ w := by
      rintro rfl
      rw [dist_self hr] at hl
      cases hl
    have hdist := dist_succ_left hr hw hne
    rw [List.length_cons] at hl
    exact ⟨hy, ih (Nat.mod_lt _ (by omega)) hrest (by omega)⟩

/-- The slots of the list are the ones from the reader on. -/
lemma Holds.slot (h : Holds n slots r l) (hr : r < n) {j : Nat} (hj : j < l.length) :
    slots ((r + j) % n) = l[j] := by
  induction l generalizing r j with
  | nil => cases hj
  | cons y l ih =>
    obtain ⟨hy, hrest⟩ := h
    cases j with
    | zero =>
      rw [Nat.add_zero, Nat.mod_eq_of_lt hr]
      exact hy
    | succ j =>
      have hstep := ih hrest (Nat.mod_lt _ (by omega)) (Nat.lt_of_succ_lt_succ hj)
      rw [Nat.mod_add_mod, Nat.add_assoc, Nat.add_comm 1 j] at hstep
      exact hstep

end Holds

/-- The writer is not at a slot between the reader and itself. -/
lemma add_mod_ne (hr : r < n) (hw : w < n) {j : Nat} (hj : j < dist n r w) : (r + j) % n ≠ w := by
  rw [dist_eq hr hw] at hj
  by_cases h : r + j < n
  · rw [Nat.mod_eq_of_lt h]
    split_ifs at hj <;> omega
  · rw [Nat.mod_eq_sub_mod (by omega), Nat.mod_eq_of_lt (by split_ifs at hj <;> omega)]
    split_ifs at hj <;> omega

end Mars.Lib.Ring
