import Mars.Pm.Basic
import Mathlib.Tactic.Common

/-!
# The reserved pages of a range

`add_range` looks for the number of pages that the header and the meta array take by iteration: the
more pages are reserved, the fewer remain to be described. The iteration has a fixed point unless
the number of pages is 1 more than a multiple of `pageSize + 1` after the header is counted; then it
goes on for ever.
-/

namespace Mars.Pm.State

open Vm

/-- The pages that are needed if `reserved` pages are set aside. -/
def neededReserved (total reserved : Nat) : Nat :=
  (total - reserved + zoneSize + pageSize - 1) / pageSize

/-- The loop leaves with this number. -/
def IsReserve (total reserved : Nat) : Prop :=
  reserved ≤ total ∧ neededReserved total reserved = reserved

variable {total reserved r fuel : Nat}

lemma reservedPages_succ (hle : r ≤ total) : reservedPages total (fuel + 1) r =
    if neededReserved total r = r then .ok r
    else reservedPages total fuel (neededReserved total r) := by
  rw [reservedPages, if_neg (by omega)]
  rfl

lemma reservedPages_reserve (h : IsReserve total reserved) :
    reservedPages total (fuel + 1) reserved = .ok reserved := by
  rw [reservedPages_succ h.1, if_pos h.2]

lemma isReserve_of_ok (h : reservedPages total fuel r = .ok reserved) :
    IsReserve total reserved := by
  induction fuel generalizing r with
  | zero => cases h
  | succ fuel ih =>
    by_cases hle : r ≤ total
    · rw [reservedPages_succ hle] at h
      split_ifs at h with hfix
      · cases h
        exact ⟨hle, hfix⟩
      · exact ih h
    · rw [reservedPages, if_pos (by omega)] at h
      cases h

/-! ### Fixed points -/

/-- The header and the meta array take at most `reserved` pages, and more than one page less. -/
lemma isReserve_iff : IsReserve total reserved ↔ reserved ≤ total ∧
    total + zoneSize ≤ reserved * (pageSize + 1) ∧
    reserved * (pageSize + 1) < total + zoneSize + pageSize := by
  unfold IsReserve neededReserved
  rw [show pageSize = 16384 from rfl, show zoneSize = 32 from rfl]
  omega

lemma exists_isReserve_iff (htotal : 2 ≤ total) :
    (∃ reserved, IsReserve total reserved) ↔ (total + 31) % (pageSize + 1) ≠ 0 := by
  constructor
  · rintro ⟨reserved, hreserve⟩
    obtain ⟨-, hle, hlt⟩ := isReserve_iff.1 hreserve
    rw [show pageSize = 16384 from rfl, show zoneSize = 32 from rfl] at *
    omega
  · intro hmod
    refine ⟨(total + 32 + pageSize) / (pageSize + 1), isReserve_iff.2 ?_⟩
    rw [show pageSize = 16384 from rfl, show zoneSize = 32 from rfl] at *
    omega

lemma IsReserve.unique (h : IsReserve total reserved) (h' : IsReserve total r) : reserved = r := by
  obtain ⟨-, hle, hlt⟩ := isReserve_iff.1 h
  obtain ⟨-, hle', hlt'⟩ := isReserve_iff.1 h'
  rw [show pageSize = 16384 from rfl, show zoneSize = 32 from rfl] at *
  omega

lemma IsReserve.room (h : IsReserve total reserved) :
    total - reserved + zoneSize ≤ reserved * pageSize := by
  obtain ⟨hle, hroom, -⟩ := isReserve_iff.1 h
  rw [Nat.mul_succ] at hroom
  omega

lemma IsReserve.lt (h : IsReserve total reserved) (htotal : 2 ≤ total) : reserved < total := by
  obtain ⟨-, -, hlt⟩ := isReserve_iff.1 h
  rw [show pageSize = 16384 from rfl, show zoneSize = 32 from rfl] at *
  omega

/-! ### The iteration -/

lemma neededReserved_le (htotal : 2 ≤ total) (r : Nat) : neededReserved total r ≤ total := by
  rw [neededReserved, show pageSize = 16384 from rfl, show zoneSize = 32 from rfl]
  omega

/-- Two pages or more away from the fixed point, a round comes nearer to it. -/
lemma neededReserved_closer (h : IsReserve total reserved) (hle : r ≤ total) {k : Nat}
    (hk : 1 ≤ k) (hnear : r ≤ reserved + (k + 1) ∧ reserved ≤ r + (k + 1)) :
    neededReserved total r ≤ reserved + k ∧ reserved ≤ neededReserved total r + k := by
  obtain ⟨-, hroom, hlt⟩ := isReserve_iff.1 h
  rw [neededReserved, show pageSize = 16384 from rfl, show zoneSize = 32 from rfl] at *
  omega

lemma neededReserved_twice (h : IsReserve total reserved) (hle : r ≤ total)
    (hnear : r ≤ reserved + 1 ∧ reserved ≤ r + 1) :
    neededReserved total (neededReserved total r) = reserved := by
  obtain ⟨-, hroom, hlt⟩ := isReserve_iff.1 h
  unfold neededReserved
  rw [show pageSize = 16384 from rfl, show zoneSize = 32 from rfl] at *
  omega

lemma reservedPages_of_needed (hle : r ≤ total)
    (hnext : reservedPages total fuel (neededReserved total r) = .ok reserved) :
    ∃ fuel, reservedPages total fuel r = .ok reserved := by
  by_cases hfix : neededReserved total r = r
  · rw [hfix] at hnext
    exact ⟨fuel, hnext⟩
  · refine ⟨fuel + 1, ?_⟩
    rw [reservedPages_succ hle, if_neg hfix, hnext]

lemma reservedPages_mono {fuel' : Nat} (hle : fuel ≤ fuel')
    (h : reservedPages total fuel r = .ok reserved) :
    reservedPages total fuel' r = .ok reserved := by
  induction fuel generalizing r fuel' with
  | zero => cases h
  | succ fuel ih =>
    obtain ⟨k, rfl⟩ := Nat.exists_eq_add_of_le' hle
    rw [Nat.add_succ] at hle ⊢
    rw [reservedPages] at h ⊢
    dsimp only at h ⊢
    split_ifs at h ⊢ with hlt hneeded
    · exact h
    · exact ih (Nat.le_of_succ_le_succ hle) h

/-- From every start the loop reaches the fixed point, by induction on the distance to it. -/
lemma IsReserve.reached (h : IsReserve total reserved) (htotal : 2 ≤ total) (k : Nat) :
    ∀ {r : Nat}, r ≤ total → r ≤ reserved + (k + 1) → reserved ≤ r + (k + 1) →
      ∃ fuel, reservedPages total fuel r = .ok reserved := by
  induction k with
  | zero =>
    intro r hle hnear hnear'
    have hneeded := neededReserved_le htotal r
    have htwice := neededReserved_twice h hle ⟨hnear, hnear'⟩
    have hlast : reservedPages total 1 (neededReserved total (neededReserved total r)) =
        .ok reserved := by
      rw [htwice]
      exact reservedPages_reserve h
    obtain ⟨fuel, hfuel⟩ := reservedPages_of_needed hneeded hlast
    exact reservedPages_of_needed hle hfuel
  | succ k ih =>
    intro r hle hnear hnear'
    obtain ⟨hcloser, hcloser'⟩ :=
      neededReserved_closer h hle (Nat.le_add_left 1 k) ⟨hnear, hnear'⟩
    obtain ⟨fuel, hfuel⟩ := ih (neededReserved_le htotal r) hcloser hcloser'
    exact reservedPages_of_needed hle hfuel

/-- Without a fixed point the loop neither ends nor runs into the check of the subtraction. -/
lemma reservedPages_diverges (htotal : 2 ≤ total) (hnone : ∀ reserved, ¬IsReserve total reserved)
    (fuel : Nat) : ∀ {r : Nat}, r ≤ total → reservedPages total fuel r = .error .diverges := by
  induction fuel with
  | zero =>
    intro r _
    rfl
  | succ fuel ih =>
    intro r hle
    rw [reservedPages_succ hle, if_neg fun hfix => hnone r ⟨hle, hfix⟩]
    exact ih (neededReserved_le htotal r)

/-! ### The range -/

/-- With `reserved` pages in front, the meta array, the header and the data pages of a range of
`total` pages follow one another. -/
structure Sized (start total reserved : Nat) : Prop where
  usable_pos : 0 < total - reserved
  room : total - reserved + zoneSize ≤ reserved * pageSize
  metaArray_le : start + (total - reserved) ≤ start + reserved * pageSize - zoneSize
  header_le : start + reserved * pageSize - zoneSize + zoneSize = start + reserved * pageSize

lemma IsReserve.sized (h : IsReserve total reserved) (htotal : 2 ≤ total) (start : Nat) :
    Sized start total reserved := by
  have hroom := h.room
  have hlt := h.lt htotal
  exact ⟨by omega, hroom, by omega, by omega⟩

lemma and_pageMask {a : Nat} (hal : pageSize ∣ a) : a &&& (pageSize - 1) = 0 := by
  rw [show pageSize - 1 = 2 ^ 14 - 1 from rfl, Nat.and_two_pow_sub_one_eq_mod]
  exact Nat.mod_eq_zero_of_dvd hal

section AddRange

variable {debug : Bool} {s : State} {start : Nat} (hal : pageSize ∣ start)
  (hdebug : debug = true → isKernelAddress start = s.isDmap)

include hal hdebug

/-- The call on a range of `total` pages after its checks. -/
lemma addRange_pages (hpos : 0 < total) :
    s.addRange debug fuel start (start + total * pageSize) = (do
      let reserved ← reservedPages total fuel 0
      let usable := total - reserved
      if usable = 0 then .error .noUsablePages
      else
        let dataBase := start + reserved * pageSize
        .ok (carve (dataBase - zoneSize) start dataBase usable usable
          (s.addZone start reserved usable) 0)) := by
  have hcheck : (debug && isKernelAddress start != s.isDmap) = false := by
    cases debug with
    | false => rfl
    | true => simp [hdebug rfl]
  have hpages : (start + total * pageSize - start) / pageSize = total := by
    rw [Nat.add_sub_cancel_left, Nat.mul_div_cancel _ (by decide)]
  have hlt : 0 < total * pageSize := Nat.mul_pos hpos (by decide)
  unfold addRange
  rw [hcheck, if_neg (by decide), if_neg (by omega), and_pageMask hal, if_neg (by decide),
    and_pageMask (Nat.dvd_add hal (Nat.dvd_mul_left _ _)), if_neg (by decide)]
  simp only [hpages]
  rw [if_neg (by omega)]

lemma addRange_of_reserve (htotal : 2 ≤ total)
    (h : reservedPages total fuel 0 = .ok reserved) :
    ∃ s', s.addRange debug fuel start (start + total * pageSize) = .ok s' := by
  have hlt := (isReserve_of_ok h).lt htotal
  rw [addRange_pages hal hdebug (by omega), h]
  simp only [bind, Except.bind]
  rw [if_neg (by omega)]
  exact ⟨_, rfl⟩

end AddRange

/-- On a range of `total` pages the loop ends, and the metadata fit before the data pages, unless
`total + 31` is a multiple of `pageSize + 1`. -/
theorem addRange_returns_iff {start : Nat} (htotal : 2 ≤ total) (hal : pageSize ∣ start) :
    (∃ fuel reserved, reservedPages total fuel 0 = .ok reserved ∧ Sized start total reserved ∧
      ∀ debug (s : State), (debug = true → isKernelAddress start = s.isDmap) →
        ∃ s', s.addRange debug fuel start (start + total * pageSize) = .ok s') ↔
    (total + 31) % (pageSize + 1) ≠ 0 := by
  rw [← exists_isReserve_iff htotal]
  constructor
  · rintro ⟨fuel, reserved, hloop, -, -⟩
    exact ⟨reserved, isReserve_of_ok hloop⟩
  · rintro ⟨reserved, hreserve⟩
    obtain ⟨fuel, hloop⟩ := hreserve.reached htotal reserved (Nat.zero_le _) (by omega) (by omega)
    refine ⟨fuel, reserved, hloop, hreserve.sized htotal start, fun debug s hdebug => ?_⟩
    exact addRange_of_reserve hal hdebug htotal hloop

theorem addRange_returns_two_pages : (∃ fuel reserved,
    reservedPages 2 fuel 0 = .ok reserved ∧ Sized pageSize 2 reserved ∧
      ∀ debug (s : State), (debug = true → isKernelAddress pageSize = s.isDmap) →
        ∃ s', s.addRange debug fuel pageSize (pageSize + 2 * pageSize) = .ok s') :=
  (addRange_returns_iff (by decide) (Nat.dvd_refl _)).2 (by decide)

/-- With 16354 pages the loop goes back and forth between one and two reserved pages. -/
theorem addRange_diverges_16354 : (∀ fuel, reservedPages 16354 fuel 0 = .error .diverges) ∧
    ∀ fuel, (⟨.new, fun _ => 0⟩ : State).addRange true fuel pageSize
      (pageSize + 16354 * pageSize) = .error .diverges := by
  have hnone : ∀ reserved, ¬IsReserve 16354 reserved := by
    intro reserved hreserve
    exact (exists_isReserve_iff (by decide)).1 ⟨reserved, hreserve⟩ (by decide)
  have hloop : ∀ fuel, reservedPages 16354 fuel 0 = .error .diverges := fun fuel =>
    reservedPages_diverges (by decide) hnone fuel (Nat.zero_le _)
  refine ⟨hloop, fun fuel => ?_⟩
  rw [addRange_pages (Nat.dvd_refl _) (fun _ => by decide) (by decide), hloop]
  rfl

end Mars.Pm.State
