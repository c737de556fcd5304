import Mathlib.Tactic.Common
import Mathlib.Data.List.Pairwise

/-!
# Intervals and their runs

Half-open intervals of natural numbers. A sorted list of intervals is joined where one interval
ends at the start of the next one. What results are the maximal intervals that the list covers.
-/

namespace Mars.Lib.Intervals

structure Interval where
  start : Nat
  stop : Nat
deriving DecidableEq

def Interval.Contains (I : Interval) (x : Nat) : Prop := I.start ≤ x ∧ x < I.stop

/-- One of the intervals ends before the other one starts. -/
def Interval.Apart (I J : Interval) : Prop := I.stop ≤ J.start ∨ J.stop ≤ I.start

def Covers (Is : List Interval) (x : Nat) : Prop := ∃ I ∈ Is, I.Contains x

/-- Everything in the interval is covered, and nothing next to it. -/
structure IsRun (Is : List Interval) (J : Interval) : Prop where
  lt : J.start < J.stop
  covers : ∀ x, J.Contains x → Covers Is x
  before : ∀ x, x + 1 = J.start → ¬ Covers Is x
  after : ¬ Covers Is J.stop

/-- Join adjacent intervals. The argument is the interval that was joined last. -/
def coalesce : Option Interval → List Interval → List Interval
  | current, []      => current.toList
  | current, I :: Is =>
    match current with
    | none   => coalesce (some I) Is
    | some J =>
      if J.stop = I.start then coalesce (some ⟨J.start, I.stop⟩) Is
      else J :: coalesce (some I) Is

/-- Every interval ends before the next one starts. -/
structure Sorted (Is : List Interval) : Prop where
  le : ∀ I ∈ Is, I.start ≤ I.stop
  pairwise : Is.Pairwise fun I J => I.stop ≤ J.start

variable {I J K : Interval} {Is Js : List Interval} {x : Nat}

lemma covers_cons : Covers (I :: Is) x ↔ I.Contains x ∨ Covers Is x := by
  simp [Covers]

lemma isRun_singleton (hlt : J.start < J.stop) : IsRun [J] J where
  lt := hlt
  covers _ hx := ⟨J, List.mem_singleton.2 rfl, hx⟩
  before x hx := by
    rintro ⟨I, hI, hle, -⟩
    obtain rfl := List.mem_singleton.1 hI
    omega
  after := by
    rintro ⟨I, hI, -, hlt'⟩
    obtain rfl := List.mem_singleton.1 hI
    exact Nat.lt_irrefl _ hlt'

lemma Sorted.tail (h : Sorted (I :: Is)) : Sorted Is :=
  ⟨fun J hJ => h.le J (.tail _ hJ), (List.pairwise_cons.1 h.pairwise).2⟩

/-- Two adjacent intervals can be exchanged for one. -/
lemma Sorted.join (h : Sorted (J :: I :: Is)) (hadj : J.stop = I.start) :
    Sorted (⟨J.start, I.stop⟩ :: Is) := by
  have hJ := h.le J (.head _)
  have hI := h.le I (.tail _ (.head _))
  refine ⟨?_, ?_⟩
  · intro K hK
    rcases List.mem_cons.1 hK with rfl | hK
    · exact Nat.le_trans hJ (hadj ▸ hI)
    · exact h.tail.le K (List.mem_cons_of_mem _ hK)
  · exact List.pairwise_cons.2 (List.pairwise_cons.1 h.tail.pairwise)

lemma contains_join (hadj : J.stop = I.start) (hJ : J.start ≤ J.stop) (hI : I.start ≤ I.stop) :
    (⟨J.start, I.stop⟩ : Interval).Contains x ↔ J.Contains x ∨ I.Contains x := by
  unfold Interval.Contains
  dsimp only
  omega

/-- There is a gap between every two intervals. -/
def Gapped (Is : List Interval) : Prop := Is.Pairwise fun I J => I.stop < J.start

/-- Intervals of a list with gaps that meet are the same. -/
lemma Gapped.eq_of_meet (h : Gapped Is) (hI : I ∈ Is) (hJ : J ∈ Is) (hle : J.start ≤ I.stop)
    (hle' : I.start ≤ J.stop) : I = J := by
  have : Std.Symm fun I J : Interval => I.stop < J.start ∨ J.stop < I.start :=
    ⟨fun _ _ h => h.symm⟩
  by_contra hne
  have hgap : Is.Pairwise fun I J : Interval => I.stop < J.start ∨ J.stop < I.start :=
    h.imp .inl
  rcases hgap.forall hI hJ hne with hlt | hlt
  · exact Nat.not_lt.2 hle hlt
  · exact Nat.not_lt.2 hle' hlt

/-- What is joined starts where the first interval does and leaves gaps. -/
lemma coalesce_gapped (h : Sorted (J :: Is)) :
    Gapped (coalesce (some J) Is) ∧
      (∀ K ∈ coalesce (some J) Is, J.start ≤ K.start ∧ K.start ≤ K.stop) ∧
      ∀ x, Covers (coalesce (some J) Is) x ↔ Covers (J :: Is) x := by
  induction Is generalizing J with
  | nil =>
    refine ⟨List.pairwise_singleton .., ?_, fun x => Iff.rfl⟩
    intro K hK
    obtain rfl := List.mem_singleton.1 hK
    exact ⟨Nat.le_refl _, h.le K (.head _)⟩
  | cons I Is ih =>
    have hJ := h.le J (.head _)
    have hI := h.tail.le I (.head _)
    have hJI := (List.pairwise_cons.1 h.pairwise).1 I (.head _)
    rw [coalesce]
    split_ifs with hadj
    · obtain ⟨hgap, hstart, hcovers⟩ := ih (h.join hadj)
      refine ⟨hgap, hstart, fun x => ?_⟩
      rw [hcovers, covers_cons, covers_cons, covers_cons, contains_join hadj hJ hI, or_assoc]
    · obtain ⟨hgap, hstart, hcovers⟩ := ih h.tail
      refine ⟨List.pairwise_cons.2 ⟨?_, hgap⟩, ?_, fun x => ?_⟩
      · intro K hK
        have hK' := (hstart K hK).1
        omega
      · intro K hK
        rcases List.mem_cons.1 hK with rfl | hK
        · exact ⟨Nat.le_refl _, hJ⟩
        · exact ⟨by have hK' := (hstart K hK).1; omega, (hstart K hK).2⟩
      · rw [covers_cons, hcovers, covers_cons (I := J)]

/-- A joined interval ends with one of the intervals. -/
lemma stop_of_mem_coalesce {current : Option Interval} (hK : K ∈ coalesce current Is) :
    (∃ J, current = some J ∧ K.stop = J.stop) ∨ ∃ I ∈ Is, K.stop = I.stop := by
  induction Is generalizing current with
  | nil => exact .inl ⟨K, Option.mem_toList.1 hK, rfl⟩
  | cons I Is ih =>
    have hjoin : ∀ J, J.stop = I.stop → K ∈ coalesce (some J) Is →
        ∃ I' ∈ I :: Is, K.stop = I'.stop := by
      intro J hJ hK
      rcases ih hK with ⟨J', hJ', hstop⟩ | ⟨I', hI', hstop⟩
      · cases hJ'
        exact ⟨I, List.mem_cons_self .., hstop.trans hJ⟩
      · exact ⟨I', List.mem_cons_of_mem _ hI', hstop⟩
    cases current with
    | none => exact .inr (hjoin I rfl hK)
    | some J =>
      rw [coalesce] at hK
      split_ifs at hK
      · exact .inr (hjoin ⟨J.start, I.stop⟩ rfl hK)
      · rcases List.mem_cons.1 hK with rfl | hK
        · exact .inl ⟨K, rfl, rfl⟩
        · exact .inr (hjoin I rfl hK)

section Runs

variable (h : Sorted Is)

include h

lemma gapped_runs : Gapped (coalesce none Is) := by
  cases Is with
  | nil => exact List.Pairwise.nil
  | cons I Is => exact (coalesce_gapped h).1

lemma le_of_mem_runs (hJ : J ∈ coalesce none Is) : J.start ≤ J.stop := by
  cases Is with
  | nil => cases hJ
  | cons I Is => exact ((coalesce_gapped h).2.1 J hJ).2

lemma covers_runs : Covers (coalesce none Is) x ↔ Covers Is x := by
  cases Is with
  | nil => exact Iff.rfl
  | cons I Is => exact (coalesce_gapped h).2.2 x

/-- What is covered without a gap is in one of the joined intervals. -/
lemma exists_run (hlt : J.start < J.stop) (hJ : ∀ x, J.Contains x → Covers Is x) :
    ∃ K ∈ coalesce none Is, K.start ≤ J.start ∧ J.stop ≤ K.stop := by
  obtain ⟨K, hK, hle, hlt'⟩ := (covers_runs h).2 (hJ J.start ⟨Nat.le_refl _, hlt⟩)
  refine ⟨K, hK, hle, ?_⟩
  by_contra hstop
  obtain ⟨K', hK', hle', hlt''⟩ := (covers_runs h).2 (hJ K.stop ⟨by omega, by omega⟩)
  have heq := (gapped_runs h).eq_of_meet hK hK' hle' (by omega)
  rw [heq] at hlt''
  exact absurd hlt'' (Nat.lt_irrefl _)

/-- Every maximal interval is found. -/
lemma IsRun.mem_runs (hrun : IsRun Is J) : J ∈ coalesce none Is := by
  obtain ⟨⟨start, stop⟩, hK, hle, hle'⟩ := exists_run h hrun.lt hrun.covers
  dsimp only at hle hle'
  have hlt := hrun.lt
  have hcovers : ∀ x, start ≤ x → x < stop → Covers Is x :=
    fun x hx hx' => (covers_runs h).1 ⟨_, hK, hx, hx'⟩
  have hstart : start = J.start := by
    by_contra hne
    exact hrun.before (J.start - 1) (by omega) (hcovers _ (by omega) (by omega))
  have hstop : stop = J.stop := by
    by_contra hne
    exact hrun.after (hcovers _ (by omega) (by omega))
  rw [hstart, hstop] at hK
  exact hK

end Runs

end Mars.Lib.Intervals
