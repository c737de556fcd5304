import Mathlib.Algebra.Group.Nat.Defs
import Mathlib.Data.Fintype.Card
import Mathlib.Logic.Function.Basic
import Mathlib.Logic.Relation

/-!
# The ticket lock

Embedding of `TicketLock` of `klib/src/sync.rs`, which `FairSpinlock` locks and unlocks by. A
thread takes a ticket, waits until `users` is that ticket, and moves `users` on when it is done.
Both counters wrap. The lock serves its threads like a queue, and that queue is what the run is
compared with.
-/

namespace Mars.Sync

/-! ### The code -/

structure TicketLock where
  ticket : UInt64
  users  : UInt64
deriving DecidableEq

namespace TicketLock

/-- `TicketLock::new`. -/
def new : TicketLock := { ticket := 0, users := 0 }

/-- Where a thread is. A holding thread no longer reads its ticket. -/
inductive Phase where
  | idle
  /-- In the loop of `lock`, with the local variable `ticket`. -/
  | spinning (ticket : UInt64)
  /-- `lock` has returned and `unlock` has not been called. -/
  | holding (ticket : UInt64)
deriving DecidableEq

/-- The lock and the threads that use it. The lists say which threads have taken a ticket, have
come out of `lock` and have called `unlock` so far, in the order in which they did. -/
structure System (ι : Type) where
  lock     : TicketLock
  threads  : ι → Phase
  taken    : List ι
  acquired : List ι
  released : List ι

variable {ι : Type}

namespace System

/-- A new lock that no thread has used. -/
def new (ι : Type) : System ι :=
  { lock := TicketLock.new, threads := fun _ => .idle, taken := [], acquired := [], released := [] }

variable [DecidableEq ι]

def fetchAdd (σ : System ι) (i : ι) : System ι :=
  { σ with
    lock    := { σ.lock with ticket := σ.lock.ticket + 1 }
    threads := Function.update σ.threads i (.spinning σ.lock.ticket)
    taken   := σ.taken ++ [i] }

/-- One turn of the loop of `lock`, by a thread whose ticket is `ticket`. -/
def load (σ : System ι) (i : ι) (ticket : UInt64) : System ι :=
  if σ.lock.users ≠ ticket then σ
  else
    { σ with
      threads  := Function.update σ.threads i (.holding ticket)
      acquired := σ.acquired ++ [i] }

def unlock (σ : System ι) (i : ι) : System ι :=
  { σ with
    lock     := { σ.lock with users := σ.lock.users + 1 }
    threads  := Function.update σ.threads i .idle
    released := σ.released ++ [i] }

end System

section Runs

variable [DecidableEq ι]

/-- One atomic step of one thread. Only a thread that holds the lock unlocks it. -/
inductive Step (σ : System ι) : System ι → Prop where
  | fetchAdd {i : ι} : σ.threads i = .idle → Step σ (σ.fetchAdd i)
  | load {i : ι} {t : UInt64} : σ.threads i = .spinning t → Step σ (σ.load i t)
  | unlock {i : ι} {t : UInt64} : σ.threads i = .holding t → Step σ (σ.unlock i)

def Reachable (σ : System ι) : Prop := Relation.ReflTransGen Step (System.new ι) σ

end Runs

/-! ### The queue behind the counters -/

/-- The lock is the queue of the threads that wait for it or hold it: the thread at place `k`
drew the ticket `users + k`, and only the first one may hold the lock. -/
structure Serves (σ : System ι) (queue : List ι) (holder : Option ι) : Prop where
  taken    : σ.taken = σ.released ++ queue
  acquired : σ.acquired = σ.released ++ holder.toList
  nodup    : queue.Nodup
  mem      : ∀ i, i ∈ queue ↔ σ.threads i ≠ .idle
  drawn    : ∀ k i, queue[k]? = some i →
    σ.threads i = .spinning (σ.lock.users + .ofNat k) ∨
      σ.threads i = .holding (σ.lock.users + .ofNat k)
  next     : σ.lock.ticket = σ.lock.users + .ofNat queue.length
  first    : ∀ i, holder = some i → queue.head? = some i
  holds    : ∀ i, holder = some i ↔ ∃ t, σ.threads i = .holding t

lemma serves_new : Serves (System.new ι) [] none where
  taken := rfl
  acquired := rfl
  nodup := List.nodup_nil
  mem i := by simp [System.new]
  drawn k i h := by simp at h
  next := rfl
  first i h := by simp at h
  holds i := by simp [System.new]

/-- The threads that wait for the lock or hold it, the oldest ticket first. -/
def System.pending (σ : System ι) : List ι := σ.taken.drop σ.released.length

/-- What the lock promises in a state. -/
structure Fair (σ : System ι) : Prop where
  /-- At most one thread is between `lock` and `unlock`. -/
  exclusive : ∀ {i j : ι} {s t : UInt64},
    σ.threads i = .holding s → σ.threads j = .holding t → i = j
  /-- Threads come out of `lock` in the order of their tickets. -/
  in_order : σ.acquired <+: σ.taken
  /-- The pending threads are those that wait for the lock or hold it. -/
  pending : ∀ i, i ∈ σ.pending ↔ σ.threads i ≠ .idle
  /-- `users` stands at the ticket of the oldest pending thread. -/
  oldest : ∀ i, σ.pending.head? = some i →
    σ.threads i = .spinning σ.lock.users ∨ σ.threads i = .holding σ.lock.users

namespace Serves

variable {σ : System ι} {queue : List ι} {holder : Option ι}

/-- While fewer than `2 ^ 64` threads are in the queue, only its first one has the ticket
`users`. -/
lemma first_of_ticket (h : Serves σ queue holder) (hlen : queue.length < 2 ^ 64) {i : ι}
    (hi : σ.threads i = .spinning σ.lock.users) : queue.head? = some i := by
  have hmem : i ∈ queue := by
    rw [h.mem, hi]
    exact Phase.noConfusion
  obtain ⟨k, hk⟩ := List.mem_iff_getElem?.1 hmem
  have hlt := lt_trans (List.getElem?_eq_some_iff.1 hk).1 hlen
  have hzero : UInt64.ofNat k = 0 := by
    have hdraw := h.drawn k i hk
    simp only [hi, Phase.spinning.injEq, reduceCtorEq, or_false] at hdraw
    exact UInt64.add_eq_left.1 hdraw.symm
  have hk0 : k = 0 := by
    have := congrArg UInt64.toNat hzero
    rwa [UInt64.toNat_ofNat_of_lt' hlt] at this
  rw [List.head?_eq_getElem?, ← hk0]
  exact hk

lemma length_lt [Fintype ι] (h : Serves σ queue holder) (hcard : Fintype.card ι < 2 ^ 64) :
    queue.length < 2 ^ 64 :=
  h.nodup.length_le_card.trans_lt hcard

lemma pending_eq (h : Serves σ queue holder) : σ.pending = queue := by
  rw [System.pending, h.taken, List.drop_left]

lemma acquired_prefix_taken (h : Serves σ queue holder) : σ.acquired <+: σ.taken := by
  rw [h.acquired, h.taken, List.prefix_append_right_inj]
  cases hholder : holder with
  | none => exact List.nil_prefix
  | some i =>
    obtain ⟨rest, rfl⟩ := List.head?_eq_some_iff.1 (h.first i hholder)
    exact ⟨rest, rfl⟩

lemma keeps_order (h : Serves σ queue holder) : Fair σ where
  exclusive hi hj := by
    have hi := (h.holds _).2 ⟨_, hi⟩
    have hj := (h.holds _).2 ⟨_, hj⟩
    exact Option.some.inj (hi.symm.trans hj)
  in_order := h.acquired_prefix_taken
  pending i := by rw [h.pending_eq, h.mem]
  oldest i hi := by
    rw [h.pending_eq, List.head?_eq_getElem?] at hi
    simpa using h.drawn 0 i hi

/-! ### Steps and runs -/

variable [DecidableEq ι]

/-- A thread that takes a ticket joins the queue at its end. -/
lemma fetchAdd (h : Serves σ queue holder) {i : ι} (hi : σ.threads i = .idle) :
    Serves (σ.fetchAdd i) (queue ++ [i]) holder := by
  have hnot : i ∉ queue := fun hmem => (h.mem i).1 hmem hi
  have hne : ∀ {j}, j ∈ queue → j ≠ i := by
    rintro j hj rfl
    exact hnot hj
  constructor
  case taken => simp [System.fetchAdd, h.taken]
  case acquired => exact h.acquired
  case nodup => exact List.nodup_append.2 ⟨h.nodup, List.nodup_singleton i, by grind⟩
  case mem =>
    intro j
    by_cases hj : j = i
    · subst hj
      simp [System.fetchAdd]
    · simp [System.fetchAdd, hj, h.mem j]
  case drawn =>
    intro k j hk
    rcases Nat.lt_or_ge k queue.length with hlt | hge
    · rw [List.getElem?_append_left hlt] at hk
      have hj : j ≠ i := hne (List.mem_of_getElem? hk)
      simpa [System.fetchAdd, hj] using h.drawn k j hk
    · -- the new thread draws the counter itself, which is `users + queue.length`
      obtain rfl : k = queue.length := by
        have := (List.getElem?_eq_some_iff.1 hk).1
        simp at this
        omega
      obtain rfl : i = j := by simpa using hk
      left
      simp [System.fetchAdd, h.next]
  case next => simp [System.fetchAdd, h.next, UInt64.ofNat_add, UInt64.add_assoc]
  case first =>
    intro j hj
    rw [List.head?_append, h.first j hj]
    rfl
  case holds =>
    intro j
    by_cases hj : j = i
    · subst hj
      simp [System.fetchAdd, h.holds, hi]
    · simp [System.fetchAdd, hj, h.holds j]

/-- A turn of the loop leaves the lock as it is, or hands it to the first thread of the queue. -/
lemma load (h : Serves σ queue holder) (hlen : queue.length < 2 ^ 64) {i : ι} {t : UInt64}
    (hi : σ.threads i = .spinning t) : ∃ holder', Serves (σ.load i t) queue holder' := by
  by_cases ht : σ.lock.users = t
  swap
  · refine ⟨holder, ?_⟩
    rw [System.load, if_pos ht]
    exact h
  subst ht
  have hhead := h.first_of_ticket hlen hi
  -- a holder would be the first thread too, but that one is still spinning
  have hfree : holder = none := by
    cases hholder : holder with
    | none => rfl
    | some j =>
      have hj : j = i := by
        have := h.first j hholder
        rw [hhead] at this
        exact (Option.some.inj this).symm
      obtain ⟨t, ht⟩ := (h.holds j).1 hholder
      rw [hj, hi] at ht
      exact Phase.noConfusion ht
  refine ⟨some i, ?_⟩
  rw [System.load, if_neg (not_not_intro rfl)]
  constructor
  case taken => exact h.taken
  case acquired => simp [h.acquired, hfree]
  case nodup => exact h.nodup
  case mem =>
    intro j
    by_cases hj : j = i
    · subst hj
      simp [h.mem, hi]
    · simp [hj, h.mem j]
  case drawn =>
    intro k j hk
    by_cases hj : j = i
    · subst hj
      have hdraw := h.drawn k j hk
      simp only [hi, Phase.spinning.injEq, reduceCtorEq, or_false] at hdraw
      right
      simpa using hdraw
    · simpa [hj] using h.drawn k j hk
  case next => exact h.next
  case first =>
    intro j hj
    rw [hhead]
    exact hj
  case holds =>
    intro j
    by_cases hj : j = i
    · subst hj
      simp
    · have hnone := h.holds j
      rw [hfree] at hnone
      simpa [hj, Ne.symm hj] using hnone

/-- The holder leaves the queue, and every thread behind it moves up by one. -/
lemma unlock (h : Serves σ queue holder) {i : ι} {t : UInt64} (hi : σ.threads i = .holding t) :
    Serves (σ.unlock i) queue.tail none := by
  have hholder : holder = some i := (h.holds i).2 ⟨t, hi⟩
  obtain ⟨rest, rfl⟩ : ∃ rest, queue = i :: rest := List.head?_eq_some_iff.1 (h.first i hholder)
  obtain ⟨hnot, hnodup⟩ := List.nodup_cons.1 h.nodup
  constructor
  case taken => simp [System.unlock, h.taken]
  case acquired => simp [System.unlock, h.acquired, hholder]
  case nodup => exact hnodup
  case mem =>
    intro j
    by_cases hj : j = i
    · subst hj
      simp [System.unlock, hnot]
    · simpa [System.unlock, hj] using h.mem j
  case drawn =>
    intro k j hk
    have hj : j ≠ i := by
      rintro rfl
      exact hnot (List.mem_of_getElem? hk)
    have hdraw := h.drawn (k + 1) j hk
    rw [Nat.add_comm k 1, UInt64.ofNat_add, ← UInt64.add_assoc] at hdraw
    simpa [System.unlock, hj] using hdraw
  case next =>
    have hnext := h.next
    rw [List.length_cons, Nat.add_comm, UInt64.ofNat_add, ← UInt64.add_assoc] at hnext
    exact hnext
  case first =>
    intro j hj
    simp at hj
  case holds =>
    intro j
    by_cases hj : j = i
    · subst hj
      simp [System.unlock]
    · have hsome := h.holds j
      rw [hholder] at hsome
      simpa [System.unlock, hj, Ne.symm hj] using hsome

lemma step [Fintype ι] (hcard : Fintype.card ι < 2 ^ 64) (h : Serves σ queue holder)
    {σ' : System ι} (hstep : Step σ σ') : ∃ queue' holder', Serves σ' queue' holder' := by
  cases hstep with
  | fetchAdd hi => exact ⟨_, _, h.fetchAdd hi⟩
  | load hi =>
    obtain ⟨holder', h'⟩ := h.load (h.length_lt hcard) hi
    exact ⟨queue, holder', h'⟩
  | unlock hi => exact ⟨_, _, h.unlock hi⟩

end Serves

lemma Reachable.serves [Fintype ι] [DecidableEq ι] (hcard : Fintype.card ι < 2 ^ 64) {σ : System ι}
    (h : Reachable σ) : ∃ queue holder, Serves σ queue holder := by
  induction h with
  | refl => exact ⟨_, _, serves_new⟩
  | tail _ hstep ih =>
    obtain ⟨queue, holder, hq⟩ := ih
    exact hq.step hcard hstep

/-- With fewer than `2 ^ 64` threads the lock is exclusive and serves them in order, in every
interleaving and however often the counters have wrapped. -/
theorem Reachable.fair [Fintype ι] [DecidableEq ι] (hcard : Fintype.card ι < 2 ^ 64) {σ : System ι}
    (h : Reachable σ) : Fair σ := by
  obtain ⟨queue, holder, hq⟩ := h.serves hcard
  exact hq.keeps_order

/-- Two threads take a ticket, and the first of them gets the lock. -/
def contended : System (Fin 2) := (((System.new (Fin 2)).fetchAdd 1).fetchAdd 0).load 1 0

lemma contended_reachable : Reachable contended := by
  refine ((Relation.ReflTransGen.single (Step.fetchAdd rfl)).tail (Step.fetchAdd ?_)).tail
    (Step.load ?_)
  · rfl
  · rfl

theorem fair_contended :
    contended.threads 1 = .holding 0 ∧ contended.threads 0 = .spinning 1 ∧ Fair contended :=
  ⟨rfl, rfl, contended_reachable.fair (by decide)⟩

/-! ### No thread waits in vain -/

open Relation

variable [DecidableEq ι] {σ : System ι} {queue : List ι} {holder : Option ι} {i j : ι}

/-- The first thread of the queue holds the lock after one turn of its loop at most. -/
lemma Serves.first_holds (h : Serves σ queue holder) (hlen : queue.length < 2 ^ 64)
    (hj : queue[0]? = some j) : ∃ σ' holder', ReflTransGen Step σ σ' ∧
      Serves σ' queue holder' ∧ σ'.taken = σ.taken ∧ ∃ t, σ'.threads j = .holding t := by
  rcases h.drawn 0 j hj with hspin | hhold
  · obtain ⟨holder', h'⟩ := h.load hlen hspin
    refine ⟨_, holder', .single (.load hspin), h', ?_, σ.lock.users, ?_⟩ <;> simp [System.load]
  · exact ⟨σ, holder, .refl, h, rfl, _, hhold⟩

/-- The threads in front take the lock and give it back, by induction on their number. -/
lemma Serves.comes_to_hold {k : Nat} (h : Serves σ queue holder) (hlen : queue.length < 2 ^ 64)
    (hi : queue[k]? = some i) : ∃ σ', ReflTransGen Step σ σ' ∧ σ'.taken = σ.taken ∧
      ∃ t, σ'.threads i = .holding t := by
  induction k generalizing σ queue holder with
  | zero =>
    obtain ⟨σ', -, hrun, -, hheld⟩ := h.first_holds hlen hi
    exact ⟨σ', hrun, hheld⟩
  | succ k ih =>
    cases queue with
    | nil => cases hi
    | cons j queue =>
      obtain ⟨σ₁, holder₁, hrun, h₁, htaken, t, ht⟩ := h.first_holds hlen rfl
      obtain ⟨σ₂, hrun₂, htaken₂, hheld⟩ := ih (h₁.unlock ht) (Nat.lt_of_succ_lt hlen) hi
      exact ⟨σ₂, hrun.trans (.head (.unlock ht) hrun₂), htaken₂.trans htaken, hheld⟩

/-- From every state of a run, the threads that have a ticket by then can go on without any other
until a given one of them holds the lock. -/
theorem Reachable.acquires [Fintype ι] (hcard : Fintype.card ι < 2 ^ 64) (h : Reachable σ)
    (hi : σ.threads i ≠ .idle) : ∃ σ', ReflTransGen Step σ σ' ∧ σ'.taken = σ.taken ∧
      ∃ t, σ'.threads i = .holding t := by
  obtain ⟨queue, holder, hserves⟩ := h.serves hcard
  obtain ⟨k, hk⟩ := List.getElem?_of_mem ((hserves.mem i).2 hi)
  exact hserves.comes_to_hold (hserves.length_lt hcard) hk

theorem acquires_contended : ∃ σ', ReflTransGen Step contended σ' ∧
    σ'.taken = contended.taken ∧ ∃ t, σ'.threads 0 = .holding t :=
  contended_reachable.acquires (by decide) (by decide)

end TicketLock

end Mars.Sync
