import Mathlib.Logic.Function.Basic
import Mathlib.Tactic.Common

/-!
# The sleeping mutex

Embedding of `SleepingMutex` of `klib/src/sync.rs` together with the parts of
`klib/src/scheduler.rs` it calls. A thread that does not get the mutex takes the spinlock of the
wait queue, tries once more and, still holding it, calls `block_current`, which takes the spinlock
of the wait queue itself. So the thread spins on a lock it holds.

Every access to a shared variable is one step of one thread. What the scheduler answers is an
input of the step, and a thread that yields may come back at any time.
-/

namespace Mars.Sync.SleepingMutex

open Function

/-! ### The code -/

/-- Where a thread is: the access it makes next. -/
inductive Phase where
  | idle
  /-- `lock`: the first compare-exchange of a round. -/
  | tryLock
  /-- `lock`: `scheduler.current_thread().expect(..)`. -/
  | askCurrent
  /-- `lock`: `let mut queue = self.wait_queue.lock()`. -/
  | lockQueue
  /-- `lock`: the second compare-exchange. -/
  | retry
  /-- `block_current`: the locks of the scheduler. -/
  | blockLocal
  /-- `block_current`: `let mut wait_qu = wait_queue.lock()`. -/
  | blockLockQueue
  /-- `block_current`: mark the current thread and append it to the queue. -/
  | blockPush
  /-- `block_current`: drop the guards. -/
  | blockDrop
  /-- `block_current`: `yield_now`. -/
  | blockYield
  /-- `lock`: the guard `queue` goes out of scope. -/
  | leaveQueue
  /-- `lock`: `Scheduler::yield_now()`. -/
  | yieldNow
  /-- `lock`: the second compare-exchange succeeded, the return drops `queue`. -/
  | returnGuard
  /-- A `SleepingMutexGuard` is alive. -/
  | guard
  /-- `unlock`: `let mut queue = self.wait_queue.lock()`. -/
  | unlockQueue
  /-- `unlock`: `self.locked.store(false)`. -/
  | unlockStore
  /-- `unlock`: `queue.pop_front()` and `scheduler.unblock`. -/
  | unlockPop
  /-- `unlock`: the guard `queue` goes out of scope. -/
  | unlockDrop
  | panicked
deriving DecidableEq

/-- The mutex, the state of the threads as far as blocking goes, and what each is doing. -/
structure System (T : Type) where
  locked : Bool
  /-- The spinlock of the wait queue: the thread that took it last, until it is released. -/
  queueHolder : Option T
  waitQueue : List T
  blocked : T → Bool
  phase : T → Phase

namespace System

variable {T : Type} [DecidableEq T]

def new : System T :=
  { locked := false
    queueHolder := none
    waitQueue := []
    blocked := fun _ => false
    phase := fun _ => .idle }

def goto (σ : System T) (t : T) (p : Phase) : System T :=
  { σ with phase := update σ.phase t p }

def releaseQueue (σ : System T) : System T := { σ with queueHolder := none }

/-- One try of the loop in `UnfairSpinlock::lock` of the wait queue. -/
def acquireQueue (σ : System T) (t : T) (p : Phase) : System T :=
  match σ.queueHolder with
  | none   => { σ with queueHolder := some t }.goto t p
  | some _ => σ

/-- One compare-exchange of `locked` from `false` to `true`. -/
def acquire (σ : System T) (t : T) (won lost : Phase) : System T :=
  if σ.locked then σ.goto t lost else { σ with locked := true }.goto t won

/-- The next access of the thread `t`. The scheduler has `cur` as the current thread of its
CPU. -/
def step (cur : Option T) (t : T) (σ : System T) : System T :=
  match σ.phase t with
  | .idle           => σ.goto t .tryLock
  | .tryLock        => σ.acquire t .guard .askCurrent
  | .askCurrent     => σ.goto t (if cur.isSome then .lockQueue else .panicked)
  | .lockQueue      => σ.acquireQueue t .retry
  | .retry          => σ.acquire t .returnGuard .blockLocal
  | .blockLocal     => σ.goto t .blockLockQueue
  | .blockLockQueue => σ.acquireQueue t .blockPush
  | .blockPush =>
    match cur with
    | none   => σ.goto t .blockDrop
    | some c =>
      { σ with
        blocked := update σ.blocked c true
        waitQueue := σ.waitQueue ++ [c] }.goto t .blockDrop
  | .blockDrop   => σ.releaseQueue.goto t .blockYield
  | .blockYield  => σ.goto t .leaveQueue
  | .leaveQueue  => σ.releaseQueue.goto t .yieldNow
  | .yieldNow    => σ.goto t .tryLock
  | .returnGuard => σ.releaseQueue.goto t .guard
  | .guard       => σ.goto t .unlockQueue
  | .unlockQueue => σ.acquireQueue t .unlockStore
  | .unlockStore => { σ with locked := false }.goto t .unlockPop
  | .unlockPop =>
    match σ.waitQueue with
    | []        => σ.goto t .unlockDrop
    | n :: rest =>
      { σ with
        blocked := update σ.blocked n false
        waitQueue := rest }.goto t .unlockDrop
  | .unlockDrop => σ.releaseQueue.goto t .idle
  | .panicked   => σ

/-- The steps of a schedule, one thread and the answer of the scheduler for each. -/
def run (σ : System T) (schedule : List (T × Option T)) : System T :=
  schedule.foldl (fun σ s => σ.step s.2 s.1) σ

end System

/-! ### What the protocol promises -/

namespace Phase

/-- In a loop on the spinlock of the wait queue. -/
def spins : Phase → Bool
  | .lockQueue | .blockLockQueue | .unlockQueue => true
  | _                                           => false

/-- At one of the two yields. -/
def yields : Phase → Bool
  | .blockYield | .yieldNow => true
  | _                       => false

/-- A guard of the mutex exists. -/
def hasGuard : Phase → Bool
  | .returnGuard | .guard => true
  | _                     => false

def unlocks : Phase → Bool
  | .unlockQueue | .unlockStore | .unlockPop | .unlockDrop => true
  | _                                                      => false

/-- On the way to one of the compare-exchanges. -/
def tries : Phase → Bool
  | .tryLock | .askCurrent | .lockQueue | .retry => true
  | _                                            => false

/-- Back from the scheduler as soon as it lets the thread run. -/
def sleeps : Phase → Bool
  | .blockYield | .leaveQueue | .yieldNow => true
  | _                                     => false

end Phase

section Protocol

variable {T : Type} [DecidableEq T]

structure System.Safe (σ : System T) : Prop where
  /-- Nobody spins on the spinlock of the wait queue while holding it. -/
  no_self_spin : ∀ t, (σ.phase t).spins = true → σ.queueHolder ≠ some t
  one_guard : ∀ t u, (σ.phase t).hasGuard = true → (σ.phase u).hasGuard = true → t = u
  no_yield : ∀ t, (σ.phase t).yields = true → σ.queueHolder ≠ some t
  /-- When the mutex is free, nobody is inside `unlock` and nobody is about to try again, no
  thread waits. -/
  no_lost_wakeup : σ.locked = false → (∀ t, (σ.phase t).unlocks = false) →
    (∀ t, (σ.phase t).tries = false ∧ ((σ.phase t).sleeps = true → σ.blocked t = true)) →
    σ.waitQueue = []

/-- The thread is about to lose the second compare-exchange. -/
def System.Contends (σ : System T) (t : T) : Prop := σ.phase t = .retry ∧ σ.locked = true

/-- The states reached without anybody losing the second compare-exchange. -/
inductive Calm : System T → Prop where
  | new : Calm System.new
  | step {σ : System T} (cur : Option T) (t : T) (h : Calm σ) (hcalm : ¬ σ.Contends t) :
      Calm (σ.step cur t)

end Protocol

/-! ### Runs without contention -/

namespace Phase

/-- The phases before `block_current` and outside of it. -/
def outside : Phase → Bool
  | .blockLocal | .blockLockQueue | .blockPush | .blockDrop | .blockYield | .leaveQueue
  | .yieldNow => false
  | _         => true

/-- Holding the spinlock of the wait queue. -/
def holdsQueue : Phase → Bool
  | .retry | .returnGuard | .unlockStore | .unlockPop | .unlockDrop => true
  | _                                                              => false

/-- The mutex is locked for this thread. -/
def owns : Phase → Bool
  | .returnGuard | .guard | .unlockQueue | .unlockStore => true
  | _                                                   => false

lemma owns_of_hasGuard {p : Phase} (h : p.hasGuard = true) : p.owns = true := by
  cases p <;> first | rfl | cases h

end Phase

variable {T : Type} [DecidableEq T] {σ : System T} {t : T}

/-- The invariant of runs without contention. -/
structure System.Inv (σ : System T) : Prop where
  outside : ∀ t, (σ.phase t).outside = true
  holder : ∀ t, (σ.phase t).holdsQueue = true ↔ σ.queueHolder = some t
  locked : ∀ t, (σ.phase t).owns = true → σ.locked = true
  unique : ∀ t u, (σ.phase t).owns = true → (σ.phase u).owns = true → t = u
  waitQueue : σ.waitQueue = []

omit [DecidableEq T] in
lemma inv_new : (System.new : System T).Inv where
  outside _ := rfl
  holder t := by simp [System.new, Phase.holdsQueue]
  locked t h := by cases h
  unique t u h := by cases h
  waitQueue := rfl

omit [DecidableEq T] in
lemma System.Inv.others_free (h : σ.Inv) (ht : (σ.phase t).owns = true) (u : T) (hu : u ≠ t) :
    (σ.phase u).owns = false := by
  rw [Bool.eq_false_iff]
  exact fun hu' => hu (h.unique u t hu' ht)

/-- One thread moves on to `p` and leaves `b` and `q` in the two locks: what the invariant needs
of them. -/
lemma System.Inv.goto (h : σ.Inv) {b : Bool} {q : Option T} {p : Phase}
    (hout : p.outside = true) (hq : p.holdsQueue = true ↔ q = some t)
    (hothers : ∀ u, u ≠ t → (q = some u ↔ σ.queueHolder = some u))
    (hown : p.owns = true → b = true ∧ ∀ u, u ≠ t → (σ.phase u).owns = false)
    (hkeep : ∀ u, u ≠ t → (σ.phase u).owns = true → b = true) :
    ({ σ with locked := b, queueHolder := q }.goto t p).Inv := by
  have hself : ({ σ with locked := b, queueHolder := q }.goto t p).phase t = p :=
    update_self ..
  have hother : ∀ u, u ≠ t →
      ({ σ with locked := b, queueHolder := q }.goto t p).phase u = σ.phase u :=
    fun u hu => update_of_ne hu ..
  refine ⟨?_, ?_, ?_, ?_, h.waitQueue⟩
  · intro u
    by_cases hu : u = t
    · rw [hu, hself]
      exact hout
    · rw [hother u hu]
      exact h.outside u
  · intro u
    by_cases hu : u = t
    · rw [hu, hself]
      exact hq
    · rw [hother u hu, h.holder u]
      exact (hothers u hu).symm
  · intro u
    by_cases hu : u = t
    · rw [hu, hself]
      exact fun hp => (hown hp).1
    · rw [hother u hu]
      exact hkeep u hu
  · intro u v hu hv
    by_cases hut : u = t
    · by_cases hvt : v = t
      · rw [hut, hvt]
      · rw [hut, hself] at hu
        rw [hother v hvt, (hown hu).2 v hvt] at hv
        cases hv
    · by_cases hvt : v = t
      · rw [hvt, hself] at hv
        rw [hother u hut, (hown hv).2 u hut] at hu
        cases hu
      · rw [hother u hut] at hu
        rw [hother v hvt] at hv
        exact h.unique u v hu hv

/-- A thread moves on without touching the locks. -/
lemma System.Inv.move (h : σ.Inv) {p : Phase} (hout : p.outside = true)
    (hq : p.holdsQueue = (σ.phase t).holdsQueue) (hown : p.owns = (σ.phase t).owns) :
    (σ.goto t p).Inv := by
  refine h.goto (b := σ.locked) (q := σ.queueHolder) hout ?_ (fun _ _ => Iff.rfl) ?_
    fun u _ => h.locked u
  · rw [hq]
    exact h.holder t
  · intro hp
    rw [hown] at hp
    exact ⟨h.locked t hp, h.others_free hp⟩

lemma System.Inv.acquireQueue (h : σ.Inv) {p : Phase} (hout : p.outside = true)
    (hq : p.holdsQueue = true) (hown : p.owns = (σ.phase t).owns) : (σ.acquireQueue t p).Inv := by
  rw [System.acquireQueue]
  cases hholder : σ.queueHolder with
  | some u => exact h
  | none =>
    refine h.goto (b := σ.locked) (q := some t) hout (by simp [hq]) ?_ ?_ fun u _ => h.locked u
    · intro u hu
      simp [hholder, Ne.symm hu]
    · intro hp
      rw [hown] at hp
      exact ⟨h.locked t hp, h.others_free hp⟩

lemma System.Inv.releaseQueue (h : σ.Inv) {p : Phase} (hold : (σ.phase t).holdsQueue = true)
    (hout : p.outside = true) (hq : p.holdsQueue = false) (hown : p.owns = (σ.phase t).owns) :
    (σ.releaseQueue.goto t p).Inv := by
  have hholder := (h.holder t).mp hold
  refine h.goto (b := σ.locked) (q := none) hout (by simp [hq]) ?_ ?_ fun u _ => h.locked u
  · intro u hu
    simp [hholder, Ne.symm hu]
  · intro hp
    rw [hown] at hp
    exact ⟨h.locked t hp, h.others_free hp⟩

/-- A compare-exchange that succeeds, or is lost in a phase that goes on without the mutex. -/
lemma System.Inv.acquire (h : σ.Inv) {won lost : Phase} (hout : won.outside = true)
    (hq : won.holdsQueue = (σ.phase t).holdsQueue)
    (hlost : σ.locked = true → (σ.goto t lost).Inv) : (σ.acquire t won lost).Inv := by
  rw [System.acquire]
  cases hlocked : σ.locked with
  | true => exact hlost hlocked
  | false =>
    have hnone : ∀ u, (σ.phase u).owns = false := by
      intro u
      rw [Bool.eq_false_iff]
      intro hu
      rw [h.locked u hu] at hlocked
      cases hlocked
    refine h.goto (b := true) (q := σ.queueHolder) hout ?_ (fun _ _ => Iff.rfl)
      (fun _ => ⟨rfl, fun u _ => hnone u⟩) fun _ _ _ => rfl
    rw [hq]
    exact h.holder t

lemma System.Inv.unlockStore (h : σ.Inv) (ht : σ.phase t = .unlockStore) :
    ({ σ with locked := false }.goto t .unlockPop).Inv := by
  have hown : (σ.phase t).owns = true := by rw [ht]; rfl
  refine h.goto (b := false) (q := σ.queueHolder) rfl ?_ (fun _ _ => Iff.rfl)
    (fun hp => by cases hp) ?_
  · rw [← h.holder t, ht]
    rfl
  · intro u hu hu'
    rw [h.others_free hown u hu] at hu'
    cases hu'

/-- A step of a thread that does not lose the second compare-exchange. -/
lemma System.Inv.step (h : σ.Inv) (hcalm : ¬ σ.Contends t) (cur : Option T) :
    (σ.step cur t).Inv := by
  have hout := h.outside t
  unfold System.step
  cases ht : σ.phase t with
  | idle => exact h.move rfl (by rw [ht]; rfl) (by rw [ht]; rfl)
  | tryLock =>
    exact h.acquire rfl (by rw [ht]; rfl) fun _ => h.move rfl (by rw [ht]; rfl) (by rw [ht]; rfl)
  | askCurrent =>
    cases cur with
    | none => exact h.move rfl (by rw [ht]; rfl) (by rw [ht]; rfl)
    | some c => exact h.move rfl (by rw [ht]; rfl) (by rw [ht]; rfl)
  | lockQueue => exact h.acquireQueue rfl rfl (by rw [ht]; rfl)
  | retry => exact h.acquire rfl (by rw [ht]; rfl) fun hlocked => absurd ⟨ht, hlocked⟩ hcalm
  | returnGuard => exact h.releaseQueue (by rw [ht]; rfl) rfl rfl (by rw [ht]; rfl)
  | guard => exact h.move rfl (by rw [ht]; rfl) (by rw [ht]; rfl)
  | unlockQueue => exact h.acquireQueue rfl rfl (by rw [ht]; rfl)
  | unlockStore => exact h.unlockStore ht
  | unlockPop =>
    rw [h.waitQueue]
    exact h.move rfl (by rw [ht]; rfl) (by rw [ht]; rfl)
  | unlockDrop => exact h.releaseQueue (by rw [ht]; rfl) rfl rfl (by rw [ht]; rfl)
  | panicked => exact h
  | blockLocal | blockLockQueue | blockPush | blockDrop | blockYield | leaveQueue | yieldNow =>
    rw [ht] at hout
    cases hout

lemma Calm.inv (h : Calm σ) : σ.Inv := by
  induction h with
  | new => exact inv_new
  | step cur t _ hcalm ih => exact ih.step hcalm cur

omit [DecidableEq T] in
lemma System.Inv.safe (h : σ.Inv) : σ.Safe where
  no_self_spin t hspins hholder := by
    have hholds := (h.holder t).mpr hholder
    cases hp : σ.phase t <;> simp [hp, Phase.spins, Phase.holdsQueue] at hspins hholds
  one_guard t u ht hu := h.unique t u (Phase.owns_of_hasGuard ht) (Phase.owns_of_hasGuard hu)
  no_yield t hyields _ := by
    have hout := h.outside t
    cases hp : σ.phase t <;> simp [hp, Phase.yields, Phase.outside] at hyields hout
  no_lost_wakeup _ _ _ := h.waitQueue

/-! ### Contention -/

/-- A thread that loses the second compare-exchange is in front of the spinlock it holds after
one more step, and stays there. -/
lemma System.Inv.contends (h : σ.Inv) (hcontends : σ.Contends t) (c₁ c₂ c₃ : Option T) :
    (((σ.step c₁ t).step c₂ t).phase t = .blockLockQueue ∧
      ((σ.step c₁ t).step c₂ t).queueHolder = some t) ∧
      ((σ.step c₁ t).step c₂ t).step c₃ t = (σ.step c₁ t).step c₂ t := by
  obtain ⟨hretry, hlocked⟩ := hcontends
  have hholder : σ.queueHolder = some t := (h.holder t).mp (by rw [hretry]; rfl)
  have h₁ : σ.step c₁ t = σ.goto t .blockLocal := by
    simp [System.step, hretry, System.acquire, hlocked]
  have h₂ : (σ.goto t .blockLocal).step c₂ t = (σ.goto t .blockLocal).goto t .blockLockQueue := by
    simp [System.step, System.goto]
  have hphase : ((σ.goto t .blockLocal).goto t .blockLockQueue).phase t = .blockLockQueue :=
    update_self ..
  have hq : ((σ.goto t .blockLocal).goto t .blockLockQueue).queueHolder = some t := hholder
  rw [h₁, h₂]
  refine ⟨⟨hphase, hq⟩, ?_⟩
  simp [System.step, hphase, System.acquireQueue, hq]

/-- As long as no thread loses the second compare-exchange, the protocol keeps its promises. A
thread that loses it spins on the spinlock of the wait queue while holding it two steps later,
and for ever, whatever the scheduler does. -/
theorem Calm.protocol (h : Calm σ) :
    σ.Safe ∧ ∀ t, σ.Contends t → ∀ c₁ c₂ c₃,
      ¬ ((σ.step c₁ t).step c₂ t).Safe ∧
        ((σ.step c₁ t).step c₂ t).step c₃ t = (σ.step c₁ t).step c₂ t := by
  refine ⟨h.inv.safe, ?_⟩
  intro t hcontends c₁ c₂ c₃
  obtain ⟨⟨hphase, hholder⟩, hstuck⟩ := h.inv.contends hcontends c₁ c₂ c₃
  refine ⟨?_, hstuck⟩
  intro hsafe
  exact hsafe.no_self_spin t (by rw [hphase]; rfl) hholder

/-- The first of two threads holds the mutex, the second is about to try for the second time. -/
def contended : System Bool :=
  let held := (System.new.step (some false) false).step (some false) false
  (((held.step (some true) true).step (some true) true).step (some true) true).step (some true) true

lemma calm_contended : Calm contended := by
  have hnot : ∀ (σ : System Bool) (t : Bool), σ.phase t ≠ .retry → ¬ σ.Contends t :=
    fun _ _ hne h => hne h.1
  have hheld : Calm ((System.new.step (some false) false).step (some false) false) :=
    .step _ _ (.step _ _ .new (hnot _ _ (by decide))) (hnot _ _ (by decide))
  have hlost := (hheld.step (some true) true (hnot _ _ (by decide))).step (some true) true
    (hnot _ _ (by decide))
  exact (hlost.step (some true) true (hnot _ _ (by decide))).step (some true) true
    (hnot _ _ (by decide))

/-- The protocol has kept its promises so far and breaks them with the next two steps. -/
theorem contended_protocol : contended.Safe ∧ ¬ ((contended.step none true).step none true).Safe :=
  ⟨calm_contended.protocol.1,
    (calm_contended.protocol.2 true ⟨rfl, rfl⟩ none none none).1⟩

/-- Two threads, and the second wants the mutex while the first has it. -/
theorem second_thread_deadlocks : ∃ schedule : List (Bool × Option Bool),
    ((System.new.run schedule).phase true).spins = true ∧
      (System.new.run schedule).queueHolder = some true ∧
      ((System.new.run schedule).phase false).hasGuard = true := by
  refine ⟨[(false, some false), (false, some false), (true, some true), (true, some true),
    (true, some true), (true, some true), (true, some true), (true, some true)], ?_⟩
  exact ⟨rfl, rfl, rfl⟩

end Mars.Sync.SleepingMutex
