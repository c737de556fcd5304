import Mars.Lib.Intervals
import Mars.Lib.Merge
import Mathlib.Data.List.TakeWhile

/-!
# Sweeps over intervals

Intervals that meet are joined, and a window moves over what they cover. The items that start
before the end of the window have been taken from a sorted list, and those of them that end in
front of the window are dropped: what remains is what the window meets.
-/

namespace Mars.Lib.Sweep

open Intervals Merge

/-! ### Joining intervals -/

section Join

/-- The second interval, which starts later, starts in the first one or at its end. -/
def touches (I J : Interval) : Bool := J.start ≤ I.stop

def hull (I J : Interval) : Interval := ⟨I.start, max I.stop J.stop⟩

/-- The order of the starts. -/
def Ordered (Is : List Interval) : Prop := Is.Pairwise fun I J => I.start ≤ J.start

variable {pending : Option Interval} {Is : List Interval}

lemma closed_ordered : Closed touches hull Ordered where
  tail _ _ h := h.tail
  join I J Is h _ := by
    obtain ⟨hI, hrest⟩ := List.pairwise_cons.mp h
    exact List.pairwise_cons.mpr
      ⟨fun K hK => hI K (.tail _ hK), (List.pairwise_cons.mp hrest).2⟩

lemma covers_joinRuns (h : Ordered (pending.toList ++ Is)) (x : Nat) :
    Covers (joinRuns touches hull pending Is) x ↔ Covers (pending.toList ++ Is) x := by
  refine exists_mem_joinRuns_iff closed_ordered (fun I J Is h htouch => ?_) h
  have hle : I.start ≤ J.start := (List.pairwise_cons.mp h).1 J (.head _)
  have htouch := of_decide_eq_true htouch
  simp only [Interval.Contains, hull]
  omega

lemma gapped_joinRuns (h : Ordered (pending.toList ++ Is)) :
    Gapped (joinRuns touches hull pending Is) := by
  induction Is generalizing pending with
  | nil => cases pending <;> simp [joinRuns, Gapped]
  | cons J Is ih =>
    cases pending with
    | none => exact ih h
    | some I =>
      rw [joinRuns]
      split_ifs with htouch
      · exact ih (closed_ordered.join I J Is h htouch)
      · have hrest := closed_ordered.tail I (J :: Is) h
        refine List.pairwise_cons.mpr ⟨fun K hK => ?_, ih hrest⟩
        have hkey : ∀ I J : Interval, (hull I J).start = I.start := fun _ _ => rfl
        obtain ⟨L, hL, hstart⟩ := exists_key_of_mem_joinRuns Interval.start hkey hK
        have htouch : ¬ J.start ≤ I.stop := fun hle => htouch (decide_eq_true hle)
        have hle : J.start ≤ L.start := by
          rcases List.mem_cons.mp hL with rfl | hL
          · exact le_rfl
          · exact (List.pairwise_cons.mp hrest).1 L hL
        omega

end Join

/-! ### The window -/

section Window

variable {α : Type} (start stop : α → Nat)

/-- Take what starts before the end of the window; what ends in front of it is left out. -/
def advance (pa pageEnd : Nat) : (todo active : List α) → List α × List α
  | [],     active => ([], active)
  | d :: ds, active =>
    if pageEnd ≤ start d then (d :: ds, active)
    else advance pa pageEnd ds (if pa < stop d then active ++ [d] else active)

/-- Before the window is at `pa`: the items that have been taken start in front of it, and those
of them that do not end in front of it are active. -/
def Swept (items : List α) (pa : Nat) (todo active : List α) : Prop :=
  ∃ done, items = done ++ todo ∧ (∀ d ∈ done, start d < pa) ∧
    active.filter (fun d => pa < stop d) = done.filter fun d => pa < stop d

variable {start stop} {items todo active : List α} {pa pa' pageEnd : Nat}

lemma swept_init : Swept start stop items pa items [] :=
  ⟨[], rfl, by simp, rfl⟩

lemma advance_eq : advance start stop pa pageEnd todo active =
    (todo.dropWhile (fun d => start d < pageEnd),
      active ++ (todo.takeWhile fun d => start d < pageEnd).filter fun d => pa < stop d) := by
  induction todo generalizing active with
  | nil => simp [advance]
  | cons d todo ih =>
    rw [advance]
    split_ifs with hend hstop
    · simp [not_lt.mpr hend]
    · simp [ih, Nat.lt_of_not_le hend, hstop]
    · simp [ih, Nat.lt_of_not_le hend, hstop]

/-- What is left of a sorted list starts behind the window. -/
lemma le_start_of_mem_dropWhile (hsorted : todo.Pairwise fun d e => start d ≤ start e) {d : α}
    (hd : d ∈ todo.dropWhile fun d => start d < pageEnd) : pageEnd ≤ start d := by
  induction todo with
  | nil => cases hd
  | cons e todo ih =>
    obtain ⟨he, htodo⟩ := List.pairwise_cons.mp hsorted
    by_cases hlt : start e < pageEnd
    · simp only [List.dropWhile_cons, hlt, decide_true, if_true] at hd
      exact ih htodo hd
    · simp only [List.dropWhile_cons, hlt, decide_false, Bool.false_eq_true, if_false] at hd
      rcases List.mem_cons.mp hd with rfl | hd
      · exact Nat.le_of_not_lt hlt
      · exact (Nat.le_of_not_lt hlt).trans (he d hd)

/-- One step of the window: the active items are those that meet it. -/
lemma Swept.advance (hsorted : items.Pairwise fun d e => start d ≤ start e)
    (h : Swept start stop items pa todo active) (hle : pa ≤ pageEnd) {todo' active' : List α}
    (hstep : advance start stop pa pageEnd todo active = (todo', active')) :
    (active'.filter fun d => pa < stop d) =
        items.filter (fun d => start d < pageEnd ∧ pa < stop d) ∧
      ∀ pa' ≥ pageEnd, Swept start stop items pa' todo' (active'.filter fun d => pa < stop d) := by
  obtain ⟨done, hitems, hdone, hactive⟩ := h
  rw [advance_eq, Prod.mk.injEq] at hstep
  obtain ⟨rfl, rfl⟩ := hstep
  set taken := todo.takeWhile fun d => start d < pageEnd
  set rest := todo.dropWhile fun d => start d < pageEnd
  have htodo : todo = taken ++ rest := List.takeWhile_append_dropWhile.symm
  have htaken : ∀ d ∈ done ++ taken, start d < pageEnd := by
    intro d hd
    rcases List.mem_append.mp hd with hd | hd
    · exact (hdone d hd).trans_le hle
    · have hlt := List.mem_takeWhile_imp hd
      exact of_decide_eq_true hlt
  have hrest : ∀ d ∈ rest, pageEnd ≤ start d := by
    rw [hitems] at hsorted
    intro d hd
    exact le_start_of_mem_dropWhile (List.pairwise_append.mp hsorted).2.1 hd
  have hkept : (active ++ taken.filter fun d => pa < stop d).filter (fun d => pa < stop d) =
      (done ++ taken).filter fun d => pa < stop d := by
    rw [List.filter_append, List.filter_filter, hactive, List.filter_append]
    simp
  rw [hitems, htodo, ← List.append_assoc, hkept]
  refine ⟨?_, fun pa' hpa' => ⟨done ++ taken, rfl, fun d hd => ?_, ?_⟩⟩
  · have hnone : rest.filter (fun d => start d < pageEnd ∧ pa < stop d) = [] := by
      rw [List.filter_eq_nil_iff]
      intro d hd
      simp [not_lt.mpr (hrest d hd)]
    rw [List.filter_append _ rest, hnone, List.append_nil]
    apply List.filter_congr
    intro d hd
    simp [htaken d hd]
  · exact (htaken d hd).trans_le hpa'
  · rw [List.filter_filter]
    apply List.filter_congr
    intro d _
    have hlt : pa' < stop d → pa < stop d := by omega
    simpa using hlt

end Window

end Mars.Lib.Sweep
