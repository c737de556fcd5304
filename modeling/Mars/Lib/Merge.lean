import Mathlib.Data.List.Basic

/-!
# Joining neighbours in a stream

A loop over a stream keeps the last element back, as long as the next ones can be joined to it, and
passes it on as soon as one cannot. What it passes on is a list that depends on the elements only.
-/

namespace Mars.Lib.Merge

variable {α σ : Type} (can : α → α → Bool) (join : α → α → α)

/-- The joined list. The first argument is the element that is kept back. -/
def joinRuns : Option α → List α → List α
  | pending, []        => pending.toList
  | none, x :: xs      => joinRuns (some x) xs
  | some last, x :: xs =>
    if can last x then joinRuns (some (join last x)) xs else last :: joinRuns (some x) xs

/-- One round of the loop; `emit` takes what is passed on. -/
def stream (emit : σ → α → σ) (s : σ × Option α) (x : α) : σ × Option α :=
  match s.2 with
  | none      => (s.1, some x)
  | some last => if can last x then (s.1, some (join last x)) else (emit s.1 last, some x)

/-- What is kept back at the end is passed on, too. -/
def finish (emit : σ → α → σ) (s : σ × Option α) : σ :=
  match s.2 with
  | none      => s.1
  | some last => emit s.1 last

variable {can join}
variable {pending : Option α} {xs : List α}

/-- A loop that does what `stream` does, with its own state and before that something to each
element, passes on the joined list. -/
lemma finish_foldl {β τ : Type} {emit : σ → α → σ} (step : τ → β → τ) (state : τ → σ × Option α)
    (f : β → α) (hstep : ∀ t x, state (step t x) = stream can join emit (state t) (f x))
    (xs : List β) (t : τ) : finish emit (state (xs.foldl step t)) =
      (joinRuns can join (state t).2 (xs.map f)).foldl emit (state t).1 := by
  induction xs generalizing t with
  | nil =>
    rw [List.foldl_nil, List.map_nil, joinRuns, finish]
    cases (state t).2 <;> rfl
  | cons x xs ih =>
    rw [List.foldl_cons, ih, hstep, List.map_cons, stream]
    cases (state t).2 with
    | none => rfl
    | some last =>
      rw [joinRuns]
      dsimp only
      split_ifs <;> rfl

/-- A list that stays valid when its first two elements are joined or its first one is dropped. -/
structure Closed (can : α → α → Bool) (join : α → α → α) (V : List α → Prop) : Prop where
  tail : ∀ a l, V (a :: l) → V l
  join : ∀ a b l, V (a :: b :: l) → can a b → V (join a b :: l)

/-- What is counted once in two elements that are joined and in their join is counted the same in
the joined list. -/
lemma countP_joinRuns {V : List α → Prop} (hV : Closed can join V) {p : α → Bool}
    (hp : ∀ a b l, V (a :: b :: l) → can a b → [join a b].countP p = [a, b].countP p)
    (h : V (pending.toList ++ xs)) :
    (joinRuns can join pending xs).countP p = (pending.toList ++ xs).countP p := by
  induction xs generalizing pending with
  | nil => rw [joinRuns, List.append_nil]
  | cons x xs ih =>
    cases pending with
    | none => exact ih h
    | some last =>
      rw [joinRuns]
      split_ifs with hcan
      · have hjoin := hp last x xs h hcan
        have hrest : (joinRuns can join (some (join last x)) xs).countP p =
            ([join last x] ++ xs).countP p := ih (hV.join last x xs h hcan)
        change _ = ([last, x] ++ xs).countP p
        rw [hrest, List.countP_append, List.countP_append, hjoin]
      · have hrest : (joinRuns can join (some x) xs).countP p = (x :: xs).countP p :=
          ih (hV.tail last (x :: xs) h)
        change _ = ([last] ++ (x :: xs)).countP p
        rw [← List.singleton_append, List.countP_append, List.countP_append, hrest]

/-- What a join has exactly if one of its parts has it is had by an element of the joined list
exactly if an element of the list has it. -/
lemma exists_mem_joinRuns_iff {V : List α → Prop} (hV : Closed can join V) {p : α → Prop}
    (hp : ∀ a b l, V (a :: b :: l) → can a b → (p (join a b) ↔ p a ∨ p b))
    (h : V (pending.toList ++ xs)) :
    (∃ y ∈ joinRuns can join pending xs, p y) ↔ ∃ x ∈ pending.toList ++ xs, p x := by
  induction xs generalizing pending with
  | nil => rw [joinRuns, List.append_nil]
  | cons x xs ih =>
    cases pending with
    | none => exact ih h
    | some last =>
      rw [joinRuns]
      split_ifs with hcan
      · have hrest : (∃ y ∈ joinRuns can join (some (join last x)) xs, p y) ↔
            ∃ y ∈ join last x :: xs, p y := ih (hV.join last x xs h hcan)
        rw [hrest, List.exists_mem_cons_iff, hp last x xs h hcan, or_assoc]
        simp
      · have hrest : (∃ y ∈ joinRuns can join (some x) xs, p y) ↔ ∃ y ∈ x :: xs, p y :=
          ih (hV.tail last (x :: xs) h)
        rw [List.exists_mem_cons_iff, hrest]
        simp

lemma forall_mem_joinRuns {p : α → Prop} (hp : ∀ a b, p a → p b → p (join a b))
    (h : ∀ x ∈ pending.toList ++ xs, p x) : ∀ y ∈ joinRuns can join pending xs, p y := by
  induction xs generalizing pending with
  | nil => simpa [joinRuns] using h
  | cons x xs ih =>
    cases pending with
    | none => exact ih h
    | some last =>
      simp only [Option.toList_some, List.singleton_append, List.forall_mem_cons] at h
      obtain ⟨hlast, hx, hxs⟩ := h
      rw [joinRuns]
      split_ifs
      · exact ih (List.forall_mem_cons.mpr ⟨hp last x hlast hx, hxs⟩)
      · exact List.forall_mem_cons.mpr ⟨hlast, ih (List.forall_mem_cons.mpr ⟨hx, hxs⟩)⟩

lemma length_joinRuns_le (pending : Option α) (xs : List α) :
    (joinRuns can join pending xs).length ≤ (pending.toList ++ xs).length := by
  induction xs generalizing pending with
  | nil => simp [joinRuns]
  | cons x xs ih =>
    cases pending with
    | none => exact ih (some x)
    | some last =>
      rw [joinRuns]
      split_ifs
      · exact Nat.le_succ_of_le (ih (some (join last x)))
      · exact Nat.succ_le_succ (ih (some x))

section Key

variable {κ : Type} (key : α → κ) (hkey : ∀ a b, key (join a b) = key a)

include hkey

lemma exists_key_of_mem_joinRuns {y : α} (hy : y ∈ joinRuns can join pending xs) :
    ∃ z ∈ pending.toList ++ xs, key z = key y := by
  induction xs generalizing pending with
  | nil => exact ⟨y, by simpa [joinRuns] using hy, rfl⟩
  | cons x xs ih =>
    cases pending with
    | none => exact ih hy
    | some last =>
      rw [joinRuns] at hy
      split_ifs at hy
      · obtain ⟨z, hz, hzy⟩ := ih hy
        rcases List.mem_cons.mp hz with rfl | hz
        · exact ⟨last, (.head _), (hkey last x).symm.trans hzy⟩
        · exact ⟨z, List.mem_cons_of_mem _ (.tail _ hz), hzy⟩
      · rcases List.mem_cons.mp hy with rfl | hy
        · exact ⟨y, (.head _), rfl⟩
        · obtain ⟨z, hz, hzy⟩ := ih hy
          exact ⟨z, List.mem_cons_of_mem _ hz, hzy⟩

/-- The element that is kept back starts an element of the joined list. -/
lemma exists_mem_joinRuns_some (last : α) (xs : List α) :
    ∃ y ∈ joinRuns can join (some last) xs, key y = key last := by
  induction xs generalizing last with
  | nil => exact ⟨last, List.mem_singleton_self last, rfl⟩
  | cons x xs ih =>
    rw [joinRuns]
    split_ifs
    · obtain ⟨y, hy, hkey'⟩ := ih (join last x)
      exact ⟨y, hy, hkey'.trans (hkey last x)⟩
    · exact ⟨last, (.head _), rfl⟩

end Key

end Mars.Lib.Merge
